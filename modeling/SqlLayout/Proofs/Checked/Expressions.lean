import SqlLayout.Item.Alias
import SqlLayout.Item.Reflow
import SqlLayout.Proofs.Items
import SqlLayout.Proofs.Checked.Tokens

/-!
# Expressions and aliases by index

A CASE is broken in a loop over its tokens that cuts the end of the line it
leaves. A window is found by the indices of its OVER and its parentheses, and
an alias by its offset.
-/

namespace SqlLayout.Checked

/-! ## CASE -/

structure CaseState where
  nesting : Nesting := {}
  depth : Nat := 0
  closed : Bool := false
  done : List Text := []
  current : Text := []
  /-- Nothing but the indent is written on the current line. -/
  starts : Bool := false

/-- The CASEs that are open behind a keyword, and the level of the line it
starts. -/
def caseLevel (depth : Nat) : Option Keyword → Run (Nat × Option Nat)
  | some .CASE => .ok (depth + 1, none)
  | some .WHEN | some .ELSE => .ok (depth, if depth = 1 then some 1 else none)
  | some .THEN => .ok (depth, if depth = 1 then some 2 else none)
  | some .END =>
    if 0 < depth then do
      let depth ← minus depth 1
      return (depth, if depth = 0 then some 0 else none)
    else .ok (depth, none)
  | _ => .ok (depth, none)

def CaseState.write (s : CaseState) (t : Token) : CaseState :=
  if s.starts && t.isSpace then s else { s with starts := false, current := s.current ++ t.text }

def caseRound (indent : Nat) (s : CaseState) (t : Token) : Run CaseState := do
  let (level, nesting) ← stepDepth s.nesting t
  let (depth, level) ← caseLevel s.depth (keywordAt level t)
  let s := { s with nesting, depth, closed := s.closed || level = some 0 }
  match level with
  | none => return s.write t
  | some l => do
    let line ← slice s.current 0 (byteSize (trimEnd s.current))
    return { s with done := s.done ++ [line], current := pad (l * indent), starts := true }.write t

def reflowCase (indent : Nat) (code : Text) : Run (Option Text) := do
  let s ← (← lex code).foldlM (caseRound indent) {}
  return if s.depth = 0 && s.closed then some (joinLines (s.done ++ [s.current])) else none

/-! ## Windows -/

def overRound (ts : List Token) (n : Nesting) (i : Nat) (t : Token) : Run (Round Nesting (Option (Nat × Nat))) := do
  let (level, n) ← stepDepth n t
  if keywordAt level t = some .OVER then
    match ← position (fun t => !t.isSpace) ts (i + 1) with
    | some k => return if (← elem ts k) = .openParen then .stop (some (i, k)) else .next n (i + 1)
    | none => return .next n (i + 1)
  else return .next n (i + 1)

def levelRound (level : Nat) (i : Nat) : Token → Run (Round Nat (Option Nat))
  | .openParen => .ok (.next (level + 1) (i + 1))
  | .closeParen => do
    let level ← minus level 1
    return if level = 0 then .stop (some i) else .next level (i + 1)
  | _ => .ok (.next level (i + 1))

structure Parting where
  nesting : Nesting := {}
  done : List Text := []
  current : Text := []

def partRound (s : Parting) (t : Token) : Run Parting := do
  let (level, nesting) ← stepDepth s.nesting t
  let s := { s with nesting }
  let s := if startsPart (keywordAt level t) && trim s.current ≠ [] then
    { s with done := s.done ++ [s.current], current := [] } else s
  return { s with current := s.current ++ t.text }

def windowLines (indent : Nat) (ts : List Token) (head opening closing : Nat) : Run (Option Text) := do
  let front := trim (spell (← range ts 0 head))
  let inner ← range ts (opening + 1) closing
  if front = [] || inner.all Token.isSpace then return none
  else do
    let s ← inner.foldlM partRound {}
    let keyword ← elem ts head
    let back := trim (spell (← range ts (closing + 1) ts.length))
    let parts := ((s.done ++ [s.current]).map trim).filter (· ≠ [])
    return some (joinLines ([front, pad indent ++ keyword.text ++ " (".toList] ++
      parts.map (pad indent ++ pad indent ++ ·) ++
      [pad indent ++ (if back = [] then [')'] else ')' :: ' ' :: back)]))

def reflowWindow (indent : Nat) (code : Text) : Run (Option Text) := do
  let ts ← lex code
  let balance ← ts.foldlM (fun n t => (stepDepth n t).map (·.2)) {}
  if !balance.isBalanced || ts.any startsQuery then return none
  else
    match ← walk ts (overRound ts) (fun _ => .ok none) {} 0 with
    | none => return none
    | some (head, opening) =>
      match ← walk ts levelRound (fun _ => .ok none) 0 opening with
      | none => return none
      | some closing => windowLines indent ts head opening closing

def reflowCode (indent : Nat) (code : Text) : Run (Option Text) :=
  if code.contains '\n' then .ok none
  else do
    match ← reflowCase indent code with
    | some s => return some s
    | none => reflowWindow indent code

/-! ## Aliases -/

def aliasRound (s : Nesting × Option Nat) (i : Nat) (t : Token × Nat × Nat) :
    Run (Round (Nesting × Option Nat) (Option Nat)) := do
  let (level, n) ← stepDepth s.1 t.1
  return .next (n, if 0 < i ∧ keywordAt level t.1 = some .AS then some t.2.1 else s.2) (i + 1)

def aliasAt (code : Text) : Run (Option Nat) :=
  if code.contains '\n' then .ok none
  else do walk (← lexSpans code) aliasRound (fun s => .ok s.2) ({}, none) 0

def widthAt (code : Text) : Option Nat → Run (Option Nat)
  | none => .ok none
  | some p => do return some (trimEnd (← slice code 0 p)).length

def padAlias (width : Nat) (i : Item) : Option Nat → Run Item
  | none => .ok i
  | some p => do
    let front := trimEnd (← slice i.code 0 p)
    let back ← slice i.code p (byteSize i.code)
    let gap ← minus width front.length
    return { i with code := front ++ pad (gap + 1) ++ back }

def padAliases (items : List Item) : Run (List Item) := do
  let placed ← items.mapM fun i => do return (i, ← aliasAt i.code)
  let widths ← placed.mapM fun p => widthAt p.1.code p.2
  match (widths.filterMap id).max? with
  | none => return items
  | some width => placed.mapM fun p => padAlias width p.1 p.2

/-! ## A CASE is broken alike -/

@[simp] theorem caseLevel_eq (d : Nat) (k : Option Keyword) : caseLevel d k = .ok (caseStep d k) := by
  cases k with
  | none => rfl
  | some k =>
    cases k with
    | END =>
      rw [caseLevel, caseStep]
      by_cases hd : 0 < d
      · rw [if_pos hd, minus_of_le hd, ok_bind]
        have hone : d - 1 = 0 ↔ d = 1 := by omega
        simp only [hone, pure_eq_ok]
      · obtain rfl : d = 0 := Nat.eq_zero_of_not_pos hd
        rfl
    | _ => rfl

def caseLines (indent : Nat) (current : Text) : List (Nat × List Token) → List Text
  | [] => [current]
  | l :: ls => trimEnd current :: caseLines indent (pad (l.1 * indent) ++ spell l.2) ls

theorem slice_trimEnd (s : Text) : slice s 0 (byteSize (trimEnd s)) = .ok (trimEnd s) := by
  obtain ⟨w, hw⟩ := trimEnd_isPrefix s
  nth_rewrite 1 [← hw]
  exact slice_head ..

/-- A line of its own starts with its keyword, so no space is left out. -/
theorem caseRound_eq (indent : Nat) (s : CaseState) (hs : s.starts = false) (t : Token) :
    caseRound indent s t = .ok (
      let next := caseStep s.depth (s.nesting.topKeyword t)
      next.2.elim ⟨s.nesting.step t, next.1, s.closed, s.done, s.current ++ t.text, false⟩ fun l =>
        ⟨s.nesting.step t, next.1, s.closed || l = 0, s.done ++ [trimEnd s.current], pad (l * indent) ++ t.text, false⟩) := by
  rw [caseRound, stepDepth_eq, ok_bind]
  simp only [keywordAt_levelOf, caseLevel_eq, ok_bind, slice_trimEnd]
  cases hnext : caseStep s.depth (s.nesting.topKeyword t) with
  | mk depth level =>
    cases level with
    | none => simp [CaseState.write, hs]
    | some l =>
      have hspace : t.isSpace = false := by
        cases t with
        | whitespace => simp [Nesting.topKeyword, Token.keyword, caseStep] at hnext
        | _ => rfl
      simp [CaseState.write, hspace]

theorem foldlM_caseRound (indent : Nat) (s : CaseState) (hs : s.starts = false) (ts : List Token) :
    let shape := caseShape s.nesting s.depth ts
    ∃ s', ts.foldlM (caseRound indent) s = .ok s' ∧ s'.depth = shape.pending ∧
      s'.closed = (s.closed || shape.later.any (·.1 = 0)) ∧
      s'.done ++ [s'.current] = s.done ++ caseLines indent (s.current ++ spell shape.first) shape.later := by
  induction ts generalizing s with
  | nil => exact ⟨s, rfl, rfl, by simp [caseShape], by simp [caseShape, caseLines]⟩
  | cons t ts ih =>
    rw [List.foldlM_cons, caseRound_eq indent s hs, ok_bind, caseShape]
    cases hnext : caseStep s.depth (s.nesting.topKeyword t) with
    | mk depth level =>
      cases level with
      | none =>
        obtain ⟨s', hfold, hdepth, hclosed, hlines⟩ :=
          ih ⟨s.nesting.step t, depth, s.closed, s.done, s.current ++ t.text, false⟩ rfl
        exact ⟨s', hfold, hdepth, hclosed, by simpa using hlines⟩
      | some l =>
        obtain ⟨s', hfold, hdepth, hclosed, hlines⟩ := ih ⟨s.nesting.step t, depth, s.closed || l = 0,
          s.done ++ [trimEnd s.current], pad (l * indent) ++ t.text, false⟩ rfl
        exact ⟨s', hfold, hdepth, by simpa [Bool.or_assoc] using hclosed, by simpa [caseLines] using hlines⟩

theorem caseShape_later (n : Nesting) (d : Nat) (ts : List Token) : ∀ l ∈ (caseShape n d ts).later, l.2 ≠ [] := by
  induction ts generalizing n d with
  | nil => nofun
  | cons t ts ih =>
    rw [caseShape]
    cases hnext : caseStep d (n.topKeyword t) with
    | mk depth level =>
      cases level with
      | none => exact ih _ _
      | some l => exact List.forall_mem_cons.mpr ⟨List.cons_ne_nil _ _, ih _ _⟩

theorem trimEnd_behind {s t : Text} (ht : t ≠ []) : trimEnd (s ++ t) = s ++ t ↔ trimEnd t = t := by
  have hlast (s : Text) : trimEnd s = s ↔ s.getLast?.all fun c => !isBlank c :=
    ⟨fun h => by rw [← h]; exact getLast_trimEnd s, trimEnd_of_getLast⟩
  rw [hlast, hlast, List.getLast?_append_of_ne_nil _ ht]

/-- The last line ends where the code does, which has no blank end. -/
theorem caseLines_eq {indent : Nat} {ls : List (Nat × List Token)} {current : Text} (hls : ∀ l ∈ ls, spell l.2 ≠ [])
    (h : trimEnd (current ++ spell (ls.flatMap (·.2))) = current ++ spell (ls.flatMap (·.2))) :
    caseLines indent current ls = trimEnd current :: ls.map fun l => trimEnd (pad (l.1 * indent) ++ spell l.2) := by
  induction ls generalizing current with
  | nil => rw [caseLines]; simpa using h.symm
  | cons l ls ih =>
    obtain ⟨hl, hls⟩ := List.forall_mem_cons.mp hls
    have hne : spell l.2 ++ spell (ls.flatMap (·.2)) ≠ [] := by simp [hl]
    rw [List.flatMap_cons, spell_append, trimEnd_behind hne] at h
    rw [caseLines, List.map_cons, ih hls (by rwa [List.append_assoc, trimEnd_behind hne])]

theorem reflowCase_eq (indent : Nat) {code : Text} (h : trimEnd code = code) :
    reflowCase indent code = .ok (SqlLayout.reflowCase indent code) := by
  obtain ⟨s, hfold, hdepth, hclosed, hlines⟩ := foldlM_caseRound indent {} rfl (tokenize code)
  have htokens := caseShape_tokens {} 0 (tokenize code)
  have hlater : ∀ l ∈ (caseShape {} 0 (tokenize code)).later, spell l.2 ≠ [] := by
    intro l hl
    obtain ⟨t, ts, e⟩ := List.exists_cons_of_ne_nil (caseShape_later _ _ _ l hl)
    have ht : t ∈ tokenize code := by
      rw [← htokens]
      exact List.mem_append_right _ (List.mem_flatten_of_mem (List.mem_map_of_mem hl) (by simp [e]))
    simp [e, (formed_of_mem ht).text_ne_nil]
  have hend : spell (caseShape {} 0 (tokenize code)).first ++ spell ((caseShape {} 0 (tokenize code)).later.flatMap (·.2)) =
      code := by
    rw [← spell_append, List.flatMap_def, htokens, spell_tokenize]
  have hcase : caseLines indent _ _ = _ := caseLines_eq hlater (by rw [hend, h])
  rw [reflowCase, lex_eq, ok_bind, hfold, ok_bind, hdepth, hclosed, hlines, SqlLayout.reflowCase]
  simp only [List.nil_append, hcase, Bool.false_or]
  simp

/-! ## A window is broken alike -/

theorem foldlM_stepDepth (n : Nesting) (ts : List Token) :
    ts.foldlM (fun n t => (stepDepth n t).map (·.2)) n = .ok (ts.foldl Nesting.step n) := by
  induction ts generalizing n with
  | nil => rfl
  | cons t ts ih => rw [List.foldlM_cons, stepDepth_eq, map_ok, ok_bind, ih, List.foldl_cons]

theorem levelRound_other {t : Token} (ho : t ≠ .openParen) (hc : t ≠ .closeParen) (level i : Nat) :
    levelRound level i t = .ok (.next level (i + 1)) := by
  cases t with
  | openParen => exact absurd rfl ho
  | closeParen => exact absurd rfl hc
  | _ => rfl

theorem levelRound_open (level i : Nat) : levelRound level i .openParen = .ok (.next (level + 1) (i + 1)) := rfl

theorem walk_level {ts b a : List Token} (e : ts = a ++ b) (d : Nat) :
    walk ts levelRound (fun _ => .ok none) (d + 1) a.length = .ok ((splitClosing d b).map fun p => (a ++ p.1).length) := by
  have hpass {a b : List Token} {t : Token} {l d : Nat} (e : ts = a ++ t :: b)
      (ih : ∀ {a : List Token}, ts = a ++ b →
        walk ts levelRound (fun _ => .ok none) (d + 1) a.length = .ok ((splitClosing d b).map fun p => (a ++ p.1).length))
      (hround : levelRound l a.length t = .ok (.next (d + 1) (a.length + 1))) :
      walk ts levelRound (fun _ => .ok none) l a.length =
        .ok (((splitClosing d b).map (Prod.map (t :: ·) id)).map fun p => (a ++ p.1).length) := by
    have ih := ih (a := a ++ [t]) (by simp [e])
    rw [List.length_append, List.length_singleton] at ih
    rw [walk_next (getElem?_split e) hround (Nat.lt_succ_self _), ih, Option.map_map]
    simp only [List.append_assoc, List.singleton_append]; rfl
  fun_induction splitClosing d b generalizing a with
  | case1 => exact walk_end (by simp [e])
  | case2 b => rw [walk_stop (getElem?_split e) (y := some a.length) (by simp [levelRound, minus])]; simp
  | case3 b d ih => exact hpass e ih (by simp [levelRound, minus])
  | case4 d b ih => exact hpass e ih rfl
  | case5 d t b hc ho ih => exact hpass e ih (levelRound_other (fun h => ho h) (fun h => hc h) _ _)

theorem walk_over {ts b a : List Token} (e : ts = a ++ b) (n : Nesting) :
    window? n b = none ∧ walk ts (overRound ts) (fun _ => .ok none) n a.length = .ok none ∨
    ∃ front k sp us, b = front ++ k :: (sp ++ .openParen :: us) ∧
      window? n b = (splitClosing 0 us).map (fun p => ⟨front, k, p.1, p.2⟩) ∧
      walk ts (overRound ts) (fun _ => .ok none) n a.length =
        .ok (some ((a ++ front).length, (a ++ front ++ k :: sp).length)) := by
  induction b generalizing a n with
  | nil => exact .inl ⟨rfl, walk_end (by simp [e])⟩
  | cons t b ih =>
    have e' : ts = a ++ [t] ++ b := by rw [e, List.append_assoc, List.singleton_append]
    have hpass (hround : overRound ts n a.length t = .ok (.next (n.step t) (a.length + 1)))
        (hw : window? n (t :: b) = (window? (n.step t) b).map fun w => { w with front := t :: w.front }) :
        window? n (t :: b) = none ∧ walk ts (overRound ts) (fun _ => .ok none) n a.length = .ok none ∨
        ∃ front k sp us, t :: b = front ++ k :: (sp ++ .openParen :: us) ∧
          window? n (t :: b) = (splitClosing 0 us).map (fun p => ⟨front, k, p.1, p.2⟩) ∧
          walk ts (overRound ts) (fun _ => .ok none) n a.length =
            .ok (some ((a ++ front).length, (a ++ front ++ k :: sp).length)) := by
      have ih := ih e' (n.step t)
      rw [List.length_append, List.length_singleton] at ih
      rw [hw, walk_next (getElem?_split e) hround (Nat.lt_succ_self _)]
      rcases ih with ⟨hnone, hwalk⟩ | ⟨front, k, sp, us, rfl, hsome, hwalk⟩
      · exact .inl ⟨by rw [hnone]; rfl, hwalk⟩
      · refine .inr ⟨t :: front, k, sp, us, rfl, by rw [hsome, Option.map_map]; rfl, ?_⟩
        rw [hwalk]; simp
    by_cases hover : n.topKeyword t = some .OVER
    · have hpos := position_append (p := fun t : Token => !t.isSpace) e'
      rw [List.length_append, List.length_singleton] at hpos
      rcases findIdx?_split (fun t : Token => !t.isSpace) b with ⟨hall, hnone⟩ | ⟨ws, u, us, rfl, hws, hu, hsome⟩
      · have hdrop : b.dropWhile Token.isSpace = [] :=
          List.dropWhile_eq_nil_iff.mpr fun w hw => by simpa using hall w hw
        refine hpass ?_ (by rw [window?, if_pos hover, hdrop])
        simp only [overRound, stepDepth_eq, ok_bind, keywordAt_levelOf, hover, hpos, hnone, if_true, Option.map_none,
          pure_eq_ok]
      · have hdrop : (ws ++ u :: us).dropWhile Token.isSpace = u :: us := by
          rw [List.dropWhile_append_of_pos fun w hw => by simpa using hws w hw,
            List.dropWhile_cons_of_neg (by simpa using hu)]
        have helem : elem ts (a.length + 1 + ws.length) = .ok u := by
          have h := elem_append (a ++ [t] ++ ws) us u
          rw [List.length_append, List.length_append, List.length_singleton] at h
          rwa [e', ← List.append_assoc]
        have hround : overRound ts n a.length t = .ok (if u = .openParen then .stop (some (a.length, a.length + 1 + ws.length))
            else .next (n.step t) (a.length + 1)) := by
          simp only [overRound, stepDepth_eq, ok_bind, keywordAt_levelOf, hover, hpos, hsome, helem, if_true,
            Option.map_some, pure_eq_ok]
        by_cases hopen : u = .openParen
        · subst hopen
          rw [if_pos rfl] at hround
          refine .inr ⟨[], t, ws, us, rfl, by rw [window?, if_pos hover, hdrop], ?_⟩
          rw [walk_stop (getElem?_split e) hround]; simp; omega
        · rw [if_neg hopen] at hround
          refine hpass hround ?_
          rw [window?, if_pos hover, hdrop]
          cases u with
          | openParen => exact absurd rfl hopen
          | _ => rfl
    · refine hpass ?_ (by rw [window?, if_neg hover])
      simp only [overRound, stepDepth_eq, ok_bind, keywordAt_levelOf, hover, if_false, pure_eq_ok]

theorem trim_ne_nil (s : Text) : decide (trim s ≠ []) = !isBlankText s := by
  rw [isBlankText, ← Bool.not_eq_eq_eq_not, ← decide_not, Bool.eq_iff_iff]
  simp [trim_eq_nil]

theorem partRound_eq (s : Parting) (t : Token) : partRound s t = .ok (
    if startsPart (s.nesting.topKeyword t) && !isBlankText s.current then
      ⟨s.nesting.step t, s.done ++ [s.current], t.text⟩
    else ⟨s.nesting.step t, s.done, s.current ++ t.text⟩) := by
  rw [partRound, stepDepth_eq, ok_bind]
  simp only [keywordAt_levelOf, trim_ne_nil, pure_eq_ok]
  split <;> simp

theorem map_spell_modifyHead (t : Token) (gs : List (List Token)) :
    (gs.modifyHead (t :: ·)).map spell = (gs.map spell).modifyHead (t.text ++ ·) := by
  cases gs <;> simp

theorem foldlM_partRound (s : Parting) (ts : List Token) :
    ∃ s', ts.foldlM partRound s = .ok s' ∧ s'.done ++ [s'.current] = s.done ++
      ((windowParts s.nesting (!isBlankText s.current) ts).map spell).modifyHead (s.current ++ ·) := by
  induction ts generalizing s with
  | nil => exact ⟨s, rfl, by simp [windowParts]⟩
  | cons t ts ih =>
    rw [List.foldlM_cons, partRound_eq, ok_bind, windowParts]
    by_cases hcut : startsPart (s.nesting.topKeyword t) && !isBlankText s.current
    · obtain ⟨hpart, hstarted⟩ := Bool.and_eq_true_iff.mp hcut
      obtain ⟨s', hfold, hlines⟩ := ih ⟨s.nesting.step t, s.done ++ [s.current], t.text⟩
      refine ⟨s', by rw [if_pos hcut]; exact hfold, ?_⟩
      have hblank : (!isBlankText t.text) = (!isBlankText s.current || !isBlankText t.text) := by
        cases htop : s.nesting.topKeyword t with
        | none => rw [htop] at hpart; cases hpart
        | some k => simp [isBlankText_keyword (keyword_of_topKeyword htop)]
      simp only [← hblank] at hlines ⊢
      rw [hlines]
      simp only [hcut, if_true, List.map_cons, map_spell_modifyHead, List.modifyHead_cons, spell_nil, List.append_nil]
      simp
    · obtain ⟨s', hfold, hlines⟩ := ih ⟨s.nesting.step t, s.done, s.current ++ t.text⟩
      refine ⟨s', by rw [if_neg hcut]; exact hfold, ?_⟩
      have hblank : (!isBlankText (s.current ++ t.text)) = (!isBlankText s.current || !isBlankText t.text) := by
        simp [isBlankText]
      simp only [hblank] at hlines
      rw [hlines, if_neg hcut, map_spell_modifyHead, modifyHead_append]

theorem pad_pad (m n : Nat) : pad m ++ pad n = pad (m + n) := List.replicate_append_replicate

theorem windowLines_eq (indent : Nat) {front inner back : List Token} {k : Token} {sp : List Token} {ts : List Token}
    (e : ts = front ++ k :: (sp ++ .openParen :: (inner ++ .closeParen :: back))) :
    windowLines indent ts front.length (front ++ k :: sp).length (front ++ k :: (sp ++ .openParen :: inner)).length =
      .ok (if isBlankText (spell front) || inner.all Token.isSpace then none
        else some (joinLines (Window.lines indent ⟨front, k, inner, back⟩))) := by
  have hfront : range ts 0 front.length = .ok front := by
    rw [e]; exact range_append [] _ _ rfl (Nat.zero_add _).symm
  have hinner : range ts ((front ++ k :: sp).length + 1) (front ++ k :: (sp ++ .openParen :: inner)).length = .ok inner := by
    have e : ts = front ++ k :: sp ++ [.openParen] ++ inner ++ .closeParen :: back := by rw [e]; simp
    rw [e]; exact range_append _ _ _ (by simp; omega) (by simp; omega)
  have hback : range ts ((front ++ k :: (sp ++ .openParen :: inner)).length + 1) ts.length = .ok back := by
    have e : ts = front ++ k :: (sp ++ .openParen :: inner) ++ .closeParen :: back := by rw [e]; simp
    rw [e]; exact range_behind ..
  have hkeyword : elem ts front.length = .ok k := by rw [e]; exact elem_append ..
  obtain ⟨s, hfold, hparts⟩ := foldlM_partRound {} inner
  have hparts : s.done ++ [s.current] = (windowParts {} false inner).map spell := by
    rw [hparts, List.nil_append]
    exact congrFun List.modifyHead_id _
  have hblank : (trim (spell front) = [] : Bool) = isBlankText (spell front) := by
    rw [isBlankText, Bool.eq_iff_iff, decide_eq_true_eq, trim_eq_nil]
  rw [windowLines, hfront, ok_bind, hinner, ok_bind, hblank]
  split
  · rfl
  · rw [hfold, ok_bind, hkeyword, ok_bind, hback, ok_bind, hparts, List.map_map, Window.lines]
    simp only [pad_pad]
    rfl

theorem reflowWindow_eq (indent : Nat) (code : Text) :
    reflowWindow indent code = .ok (SqlLayout.reflowWindow indent code) := by
  rw [reflowWindow, lex_eq, ok_bind, foldlM_stepDepth, ok_bind, SqlLayout.reflowWindow, ← Nesting.after]
  split
  · rfl
  · rcases walk_over (show tokenize code = [] ++ tokenize code from rfl) {} with ⟨hnone, hwalk⟩ | ⟨front, k, sp, us, e, hsome, hwalk⟩
    · rw [List.length_nil] at hwalk
      rw [hwalk, hnone]; rfl
    · have eo : tokenize code = front ++ k :: sp ++ .openParen :: us := by rw [e]; simp
      have hopen : (front ++ k :: (sp ++ [.openParen])).length = (front ++ k :: sp).length + 1 := by simp; omega
      have hlevel := walk_level (show tokenize code = front ++ k :: (sp ++ [.openParen]) ++ us by rw [e]; simp) 0
      rw [hopen] at hlevel
      rw [List.length_nil] at hwalk
      simp only [hwalk, hsome, ok_bind, List.nil_append]
      rw [walk_next (getElem?_split eo) (levelRound_open 0 _) (Nat.lt_succ_self _), hlevel]
      cases hclose : splitClosing 0 us with
      | none => rfl
      | some p =>
        obtain ⟨inner, back⟩ := p
        have hclosing : (front ++ k :: (sp ++ [.openParen]) ++ inner).length =
            (front ++ k :: (sp ++ .openParen :: inner)).length := by simp
        have hlines := windowLines_eq indent
          (show tokenize code = front ++ k :: (sp ++ .openParen :: (inner ++ .closeParen :: back)) by
            rw [e, splitClosing_eq hclose])
        simp only [Option.map_some, ok_bind, hclosing, hlines]

theorem reflowCode_eq (indent : Nat) {code : Text} (h : '\n' ∉ code → trimEnd code = code) :
    reflowCode indent code = .ok (reflow indent code) := by
  rw [reflowCode, reflow]
  split
  · rfl
  · next hn =>
    rw [reflowCase_eq indent (h (by simpa using hn)), ok_bind, reflowWindow_eq]
    cases SqlLayout.reflowCase indent code <;> rfl

/-! ## Aliases are moved alike -/

theorem walk_alias {ts a b : List Token} (e : ts = a ++ b) (ha : a ≠ []) (n : Nesting) (f : Option Nat) :
    walk (spans 0 ts) aliasRound (fun s => .ok s.2) (n, f) a.length =
      .ok (((splitLastAs n b).map fun p => byteSize (spell (a ++ p.1))).or f) := by
  induction b generalizing a n f with
  | nil => exact walk_end (by simp [e])
  | cons t b ih =>
    have hi : 0 < a.length := List.length_pos_iff.mpr ha
    have hround : aliasRound (n, f) a.length (t, byteSize (spell a), byteSize (spell a) + byteSize t.text) =
        .ok (.next (n.step t, if n.topKeyword t = some .AS then some (byteSize (spell a)) else f) (a.length + 1)) := by
      simp only [aliasRound, stepDepth_eq, ok_bind, keywordAt_levelOf, hi, true_and, pure_eq_ok]
    have ih := ih (a := a ++ [t]) (by simp [e]) (by simp) (n.step t)
      (if n.topKeyword t = some .AS then some (byteSize (spell a)) else f)
    rw [List.length_append, List.length_singleton] at ih
    rw [walk_next (getElem?_spans e) hround (Nat.lt_succ_self _), ih, splitLastAs]
    cases splitLastAs (n.step t) b with
    | some p => simp
    | none =>
      by_cases has : n.topKeyword t = some .AS
      · simp [has]
      · simp [has]

theorem aliasAt_cases (code : Text) : splitAlias code = none ∧ aliasAt code = .ok none ∨
    ∃ front back, code = front ++ back ∧ splitAlias code = some (trimEnd front, back) ∧
      aliasAt code = .ok (some (byteSize front)) := by
  rw [splitAlias, aliasAt]
  split
  · exact .inl ⟨rfl, rfl⟩
  rw [lexSpans_eq, ok_bind]
  have e := spell_tokenize code
  cases ht : tokenize code with
  | nil => exact .inl ⟨rfl, walk_end (Nat.le_refl 0)⟩
  | cons t ts =>
    have hfirst : aliasRound ({}, none) 0 (t, byteSize (spell []), byteSize (spell []) + byteSize t.text) =
        .ok (.next (Nesting.step {} t, none) 1) := by simp [aliasRound]
    have hwalk := walk_alias (show t :: ts = [t] ++ ts from rfl) (by simp) (Nesting.step {} t) none
    rw [List.length_singleton, Option.or_none] at hwalk
    have hstart : walk (spans 0 (t :: ts)) aliasRound (fun s => .ok s.2) ({}, none) 0 = _ :=
      walk_next (getElem?_spans (show t :: ts = [] ++ t :: ts from rfl)) hfirst Nat.zero_lt_one
    rw [hstart, hwalk]
    cases hsplit : splitLastAs (Nesting.step {} t) ts with
    | none => exact .inl ⟨by simp [hsplit], rfl⟩
    | some p =>
      refine .inr ⟨spell (t :: p.1), spell p.2, ?_, by simp [hsplit], rfl⟩
      rw [← e, ht, ← spell_append, List.cons_append, (splitLastAs_tokens hsplit).1]

theorem widthAt_eq (code : Text) :
    (do widthAt code (← aliasAt code)) = .ok ((splitAlias code).map (·.1.length)) := by
  rcases aliasAt_cases code with ⟨hs, ha⟩ | ⟨front, back, e, hs, ha⟩
  · rw [ha, hs]; rfl
  · have hslice : slice code 0 (byteSize front) = .ok front := by rw [e]; exact slice_head ..
    simp [ha, hs, widthAt, hslice]

theorem padAlias_eq {i : Item} {width : Nat} (h : ∀ p ∈ splitAlias i.code, p.1.length ≤ width) :
    (do padAlias width i (← aliasAt i.code)) = .ok (i.alignAlias width) := by
  rcases aliasAt_cases i.code with ⟨hs, ha⟩ | ⟨front, back, e, hs, ha⟩
  · simp [ha, hs, padAlias, Item.alignAlias]
  · have hfront : slice i.code 0 (byteSize front) = .ok front := by rw [e]; exact slice_head ..
    have hback : slice i.code (byteSize front) (byteSize i.code) = .ok back := by rw [e]; exact slice_tail ..
    have hgap := minus_of_le (h (trimEnd front, back) (by rw [hs]; rfl))
    simp only [ha, ok_bind, padAlias, hfront, hback, hgap, Item.alignAlias, hs, pure_eq_ok]

theorem foldl_max {l : List Nat} {m : Nat} (h : l.max? = some m) : l.foldl max 0 = m := by
  cases l with
  | nil => cases h
  | cons n l => rw [List.foldl_cons, Nat.zero_max, ← Option.some_inj, ← h, List.max?_cons']

theorem padAliases_eq (items : List Item) : padAliases items = .ok (alignAliases items) := by
  have hat (i : Item) : ∃ p, aliasAt i.code = .ok p := by
    rcases aliasAt_cases i.code with ⟨-, h⟩ | ⟨_, _, -, -, h⟩ <;> exact ⟨_, h⟩
  choose place hat using hat
  have hplaced : items.mapM (fun i => do return (i, ← aliasAt i.code)) = .ok (items.map fun i => (i, place i)) :=
    mapM_eq_ok fun i _ => by rw [hat]; rfl
  have hwidth (i : Item) : widthAt i.code (place i) = .ok ((splitAlias i.code).map (·.1.length)) := by
    have := widthAt_eq i.code
    rwa [hat] at this
  have hwidths : (items.map fun i => (i, place i)).mapM (fun p => widthAt p.1.code p.2) =
      .ok (items.map fun i => (splitAlias i.code).map (·.1.length)) := mapM_map_eq_ok fun i _ => hwidth i
  have hfilter : (items.map fun i => (splitAlias i.code).map (·.1.length)).filterMap id =
      items.filterMap fun i => (splitAlias i.code).map (·.1.length) := List.filterMap_map
  rw [padAliases, hplaced, ok_bind, hwidths, ok_bind, hfilter, alignAliases, aliasWidth]
  cases hmax : (items.filterMap fun i => (splitAlias i.code).map (·.1.length)).max? with
  | none =>
    have hnone : ∀ i ∈ items, (splitAlias i.code).map (·.1.length) = none :=
      List.filterMap_eq_nil_iff.mp (List.max?_eq_none_iff.mp hmax)
    have hkeep : ∀ i ∈ items, ∀ w, i.alignAlias w = i := fun i hi w => by
      rw [Item.alignAlias, Option.map_eq_none_iff.mp (hnone i hi)]
    rw [List.map_congr_left fun i hi => hkeep i hi _, List.map_id']; rfl
  | some width =>
    rw [foldl_max hmax]
    refine mapM_map_eq_ok fun i hi => ?_
    have : (do padAlias width i (← aliasAt i.code)) = _ := padAlias_eq fun p hp => ?_
    · rwa [hat] at this
    · refine (List.max?_eq_some_iff.mp hmax).2 _ (List.mem_filterMap.mpr ⟨i, hi, ?_⟩)
      rw [Option.mem_def.mp hp]; rfl

end SqlLayout.Checked

import SqlLayout.Source
import SqlLayout.Proofs.Lists
import SqlLayout.Proofs.Recase
import SqlLayout.Proofs.Checked.Tokens

/-!
# Items by index

An item is cut out of a token list between indices that are found from its
first and last code token. The lists of items are found in a loop that may
skip tokens.
-/

namespace SqlLayout.Checked

/-! ## One item -/

def lineStart (ts : List Token) : Nat → Run Nat
  | 0 => .ok 0
  | i + 1 => do
    let t ← elem ts i
    if t.isNewline then return i + 1 else lineStart ts i

/-- The index of the first token from `i` on that is not space, which has to
be there. -/
def skipSpaces (ts : List Token) (i : Nat) : Run Nat := do
  match ← findFrom (fun t => !t.isSpace) ts i with
  | some j => return j
  | none => .error .index

def lastIdx? {α : Type} (p : α → Bool) (l : List α) : Option Nat :=
  (l.reverse.findIdx? p).map (l.length - 1 - ·)

def fromTokens (ts : List Token) : Run (Option Item) :=
  match ts.findIdx? Token.isCode with
  | none =>
    let comments := commentLines ts
    .ok (if comments = [] then none else some { following := comments })
  | some firstCode => do
    let lastCode := (lastIdx? Token.isCode ts).getD firstCode
    let start ← skipSpaces ts (← lineStart ts firstCode)
    let tail ← range ts (lastCode + 1) ts.length
    let stop := (tail.findIdx? Token.isNewline).getD tail.length
    let leading ← range ts 0 start
    let code ← range ts start (lastCode + 1)
    let trailing ← range tail 0 stop
    let following ← range tail stop tail.length
    return some {
      leading := commentLines leading
      code := spell code
      trailing := nonempty? (trim (spell trailing))
      following := commentLines following }

def readItem (s : Text) : Run Item := do return (← fromTokens (← lex s)).getD {}

theorem lineStart_append {front line : List Token} (hf : ∀ t ∈ front.getLast?, t.isNewline)
    (hl : ∀ t ∈ line, t.isNewline = false) (rest : List Token) :
    lineStart (front ++ line ++ rest) (front.length + line.length) = .ok front.length := by
  induction line using List.reverseRecOn generalizing rest with
  | nil =>
    rcases front.eq_nil_or_concat with rfl | ⟨front, t, rfl⟩
    · rfl
    · have ht : t.isNewline := hf t (by simp)
      rw [List.concat_eq_append, List.append_nil, List.append_assoc, List.length_append, List.length_singleton]
      simp [lineStart, ht]
  | append_singleton line t ih =>
    have ht : t.isNewline = false := hl t (by simp)
    have e : front ++ (line ++ [t]) ++ rest = front ++ line ++ t :: rest := by simp
    have helem : elem (front ++ line ++ t :: rest) (front.length + line.length) = .ok t := by
      rw [← List.length_append, elem_append]
    rw [e, List.length_append, List.length_singleton, ← Nat.add_assoc, lineStart, helem, ok_bind, ht]
    exact ih (fun x hx => hl x (List.mem_append_left _ hx)) (t :: rest)

theorem lastIdx?_last {α : Type} {p : α → Bool} {b : List α} (hb : ∀ x ∈ b, p x = false) {x : α} (hx : p x) (a : List α) :
    lastIdx? p (a ++ x :: b) = some a.length := by
  have e : (a ++ x :: b).reverse = b.reverse ++ x :: a.reverse := by simp
  rw [lastIdx?, e, findIdx?_first (by simpa using hb) hx, Option.map_some, List.length_reverse]
  congr 1; simp

theorem skipSpaces_append {ts a ws b : List Token} {t : Token} (e : ts = a ++ (ws ++ t :: b)) (hw : ∀ w ∈ ws, w.isSpace)
    (ht : t.isSpace = false) : skipSpaces ts a.length = .ok (a.length + ws.length) := by
  rw [skipSpaces, findFrom_append e, findIdx?_first (fun w h => by simp [hw w h]) (by simp [ht])]; rfl

theorem commentLines_append_space {front ws : List Token} (hf : ∀ t ∈ front.getLast?, t.isNewline)
    (hw : ∀ w ∈ ws, w.isSpace ∧ w.isNewline = false ∧ w.Formed) : commentLines (front ++ ws) = commentLines front := by
  have hblank : trim (spell ws) = [] := trim_eq_nil.mpr <|
    isBlank_spell_space (fun w h => (hw w h).2.2) fun w h => (hw w h).1
  have hnil : trim [] = [] := rfl
  have hws : ws.splitOnP Token.isNewline = [ws] := List.splitOnP_eq_singleton fun w h => (hw w h).2.1
  rcases front.eq_nil_or_concat with rfl | ⟨front, t, rfl⟩
  · rw [List.nil_append, commentLines, hws]; simp [hblank, hnil, commentLines]
  · have ht : t.isNewline := hf t (by simp)
    rw [List.concat_eq_append, List.append_assoc, List.singleton_append, commentLines, commentLines,
      List.splitOnP_append_cons _ _ ht, List.splitOnP_append_cons _ _ ht, hws]
    simp [hblank, hnil]

theorem takeEndWhile_all {α : Type} (p : α → Bool) (l : List α) : ∀ x ∈ takeEndWhile p l, p x := fun x hx => by
  rw [takeEndWhile, List.mem_reverse] at hx
  exact List.mem_takeWhile_imp hx

theorem getLast_dropEndWhile {α : Type} (p : α → Bool) (l : List α) : ∀ x ∈ (dropEndWhile p l).getLast?, p x = false := by
  intro x hx
  rw [dropEndWhile, List.getLast?_reverse] at hx
  have := List.head?_dropWhile_not p l.reverse
  rw [Option.mem_def.mp hx] at this
  simpa using this

theorem getD_findIdx? {α : Type} (p : α → Bool) (l : List α) :
    (l.findIdx? p).getD l.length = (l.takeWhile (!p ·)).length := by
  induction l with
  | nil => rfl
  | cons x l ih =>
    rw [List.findIdx?_cons]
    by_cases hx : p x
    · simp [hx]
    · simp only [hx, Bool.not_false, List.takeWhile_cons_of_pos, List.length_cons, ← ih, Bool.false_eq_true, if_false]
      cases l.findIdx? p <;> rfl

/-- A token list with code between its comments, cut where the loops stop:
behind the last newline in front of the code, behind the space there, and
behind the code. -/
theorem fromTokens_cut (front ws line core back : List Token) (hform : ∀ t ∈ ws, t.Formed)
    (hnewline : ∀ t ∈ front.getLast?, t.isNewline) (hfront : ∀ t ∈ front ++ (ws ++ line), t.isCode = false)
    (hline : ∀ t ∈ ws ++ line, t.isNewline = false) (hws : ∀ t ∈ ws, t.isSpace)
    (hhead : ∀ t ∈ (line ++ core).head?, t.isSpace = false) (hfirst : ∀ t ∈ core.head?, t.isCode)
    (hlast : ∀ t ∈ core.getLast?, t.isCode) (hcore : core ≠ []) (hback : ∀ t ∈ back, t.isCode = false) :
    fromTokens (front ++ (ws ++ line) ++ (core ++ back)) = .ok (some {
      leading := commentLines front
      code := spell (line ++ core)
      trailing := nonempty? (trim (spell (back.takeWhile fun t => !t.isNewline)))
      following := commentLines (back.dropWhile fun t => !t.isNewline) }) := by
  obtain ⟨first, core₁, e₁⟩ := List.exists_cons_of_ne_nil hcore
  obtain ⟨core₂, last, e₂⟩ : ∃ core₂ last, core = core₂ ++ [last] := ⟨_, _, (List.dropLast_append_getLast hcore).symm⟩
  obtain ⟨start, rest, e₃⟩ := List.exists_cons_of_ne_nil (show line ++ core ≠ [] by simp [hcore])
  obtain ⟨ts, hts⟩ : ∃ ts, ts = front ++ (ws ++ line) ++ (core ++ back) := ⟨_, rfl⟩
  have hfind : ts.findIdx? Token.isCode = some (front.length + (ws ++ line).length) := by
    rw [hts, e₁, ← List.length_append]
    exact findIdx?_first hfront (hfirst first (by simp [e₁])) _
  have hfindLast : lastIdx? Token.isCode ts = some (front ++ (ws ++ line) ++ core₂).length := by
    have e : ts = front ++ (ws ++ line) ++ core₂ ++ last :: back := by rw [hts, e₂]; simp
    rw [e]
    exact lastIdx?_last hback (hlast last (by simp [e₂])) _
  have hend : (front ++ (ws ++ line) ++ core₂).length + 1 = (front ++ (ws ++ line) ++ core).length := by
    rw [e₂]; simp; omega
  have hstart : lineStart ts (front.length + (ws ++ line).length) = .ok front.length := by
    rw [hts]; exact lineStart_append hnewline hline _
  have hskip : skipSpaces ts front.length = .ok (front ++ ws).length := by
    have e : ts = front ++ (ws ++ start :: (rest ++ back)) := by
      rw [← List.cons_append, ← e₃, hts]; simp
    rw [skipSpaces_append e hws (hhead start (by simp [e₃])), List.length_append]
  have htail : range ts (front ++ (ws ++ line) ++ core).length ts.length = .ok back := by
    rw [hts, ← List.append_assoc]; exact range_tail _ back
  have hleading : range ts 0 (front ++ ws).length = .ok (front ++ ws) := by
    have e : ts = [] ++ (front ++ ws) ++ (line ++ core ++ back) := by rw [hts]; simp
    rw [e]; exact range_append [] _ _ rfl (Nat.zero_add _).symm
  have hcode : range ts (front ++ ws).length (front ++ (ws ++ line) ++ core).length = .ok (line ++ core) := by
    have e : ts = front ++ ws ++ (line ++ core) ++ back := by rw [hts]; simp
    rw [e]; exact range_append _ _ _ rfl (by simp; omega)
  have hsplit := List.takeWhile_append_dropWhile (p := fun t : Token => !t.isNewline) (l := back)
  have htrailing : range back 0 (back.takeWhile fun t => !t.isNewline).length = .ok (back.takeWhile fun t => !t.isNewline) := by
    nth_rewrite 1 [← hsplit]
    exact range_append [] _ _ rfl (Nat.zero_add _).symm
  have hfollowing : range back (back.takeWhile fun t => !t.isNewline).length back.length =
      .ok (back.dropWhile fun t => !t.isNewline) := by
    have := range_tail (back.takeWhile fun t => !t.isNewline) (back.dropWhile fun t => !t.isNewline)
    rwa [hsplit] at this
  rw [← hts]
  simp only [fromTokens, hfind, hfindLast, Option.getD_some, hstart, hskip, hend, htail, getD_findIdx?, hleading, hcode,
    htrailing, hfollowing, ok_bind, pure_eq_ok]
  rw [commentLines_append_space hnewline fun w h => ⟨hws w h, hline w (List.mem_append_left _ h), hform w h⟩]

theorem isCode_of_isTrivia {t : Token} (h : t.isTrivia) : t.isCode = false := by simp [Token.isCode, h]

theorem isSpace_of_isCode {t : Token} (h : t.isCode) : t.isSpace = false := by
  cases t with
  | whitespace => cases h
  | _ => rfl

theorem fromTokens_eq {ts : List Token} (hform : ∀ t ∈ ts, t.Formed) : fromTokens ts = .ok (Item.ofTokens? ts) := by
  obtain ⟨front, hfront⟩ : ∃ front, front = ts.takeWhile Token.isTrivia := ⟨_, rfl⟩
  obtain ⟨rest, hrest⟩ : ∃ rest, rest = ts.dropWhile Token.isTrivia := ⟨_, rfl⟩
  have hts : front ++ rest = ts := by rw [hfront, hrest, List.takeWhile_append_dropWhile]
  have htrivia : ∀ t ∈ front, t.isCode = false := fun t ht => by
    rw [hfront] at ht
    exact isCode_of_isTrivia (List.mem_takeWhile_imp ht)
  have hfirst : ∀ t ∈ rest.head?, t.isCode := fun t ht => by
    have := List.head?_dropWhile_not Token.isTrivia ts
    rw [← hrest, Option.mem_def.mp ht] at this
    simpa [Token.isCode] using this
  rw [Item.ofTokens?, ← hfront, ← hrest]
  by_cases hr : rest = []
  · have hnone : ts.findIdx? Token.isCode = none := List.findIdx?_eq_none_iff.mpr (by simpa [← hts, hr] using htrivia)
    simp only [fromTokens, hnone, hr, if_true]
  · have hcut := dropEndWhile_append_takeEndWhile Token.isTrivia rest
    have hlines := dropEndWhile_append_takeEndWhile (fun t : Token => !t.isNewline) front
    have hspaces := List.takeWhile_append_dropWhile (p := Token.isSpace) (l := takeEndWhile (fun t => !t.isNewline) front)
    have hback : ∀ t ∈ takeEndWhile Token.isTrivia rest, t.isCode = false := fun t ht =>
      isCode_of_isTrivia (takeEndWhile_all _ _ t ht)
    have hcore : dropEndWhile Token.isTrivia rest ≠ [] := fun h => by
      obtain ⟨t, _, e⟩ := List.exists_cons_of_ne_nil hr
      rw [h, List.nil_append] at hcut
      have := hback t (by rw [hcut, e]; exact List.mem_cons_self)
      rw [hfirst t (by simp [e])] at this; cases this
    have hhead : ∀ t ∈ (dropEndWhile Token.isTrivia rest).head?, t.isCode := fun t ht => hfirst t (by
      rw [← hcut, List.head?_append_of_ne_nil _ hcore]; exact ht)
    have h := fromTokens_cut (dropEndWhile (fun t => !t.isNewline) front)
      ((takeEndWhile (fun t => !t.isNewline) front).takeWhile Token.isSpace)
      ((takeEndWhile (fun t => !t.isNewline) front).dropWhile Token.isSpace)
      (dropEndWhile Token.isTrivia rest) (takeEndWhile Token.isTrivia rest)
      ?_ ?_ ?_ ?_ (fun t ht => List.mem_takeWhile_imp ht) ?_ hhead ?_ hcore hback
    · rw [hspaces, hlines, hcut, hts] at h
      rw [h, if_neg hr]
    · intro t ht
      refine hform t (hts ▸ List.mem_append_left _ (hlines ▸ List.mem_append_right _ ?_))
      exact (List.takeWhile_sublist _).subset ht
    · intro t ht
      simpa using getLast_dropEndWhile _ _ t ht
    · rw [hspaces, hlines]; exact htrivia
    · rw [hspaces]
      exact fun t ht => by simpa using takeEndWhile_all _ _ t ht
    · intro t ht
      rw [List.head?_append, Option.mem_def, Option.or_eq_some_iff] at ht
      rcases ht with ht | ⟨-, ht⟩
      · have := List.head?_dropWhile_not Token.isSpace (takeEndWhile (fun t => !t.isNewline) front)
        rw [ht] at this
        simpa using this
      · exact isSpace_of_isCode (hhead t ht)
    · intro t ht
      simpa [Token.isCode] using getLast_dropEndWhile _ _ t ht

theorem readItem_eq (s : Text) : readItem s = .ok (Item.read s) := by
  rw [readItem, lex_eq, ok_bind, fromTokens_eq fun t ht => formed_of_mem ht]; rfl

theorem readItem_spell {ts : List Token} (h : Lexed ts) : readItem (spell ts) = .ok (Item.ofTokens ts) := by
  rw [readItem_eq, Item.read, h.tokenize_spell]

def splitOperator (i : Item) : Run (Option (Text × Text)) := do
  match ← lex i.code with
  | .word w :: _ =>
    if (Token.word w).isKeyword .AND || (Token.word w).isKeyword .OR then
      return some (w, trimStart (← slice i.code (byteSize w) (byteSize i.code)))
    else return none
  | _ => return none

theorem splitOperator_eq (i : Item) : splitOperator i = .ok i.splitOperator := by
  have e := spell_tokenize i.code
  rw [splitOperator, lex_eq, ok_bind, Item.splitOperator]
  cases h : tokenize i.code with
  | nil => rfl
  | cons t ts =>
    rw [h, spell_cons] at e
    cases t with
    | word w =>
      have hslice : slice i.code (byteSize w) (byteSize i.code) = .ok (spell ts) := by
        rw [← e]; exact slice_tail w (spell ts)
      simp only [hslice, ok_bind, pure_eq_ok]
      split <;> rfl
    | _ => rfl

/-! ## Lists of items -/

inductive Delimiter where
  | comma
  | boolean

structure Groups where
  nesting : Nesting := {}
  done : List (List Token) := []
  current : List Token := []
  /-- BETWEENs that wait for their AND. -/
  between : Nat := 0

namespace Groups

def add (s : Groups) (ts : List Token) : Groups := { s with current := s.current ++ ts }

def cut (s : Groups) : Groups := { s with done := s.done ++ [s.current], current := [] }

def all (s : Groups) : List (List Token) := s.done ++ [s.current]

end Groups

/-- The index behind the last comment from `i` on, when nothing but space and
comments stands on the rest of the line. -/
def commentEnd (i : Nat) (found : Option Nat) : List Token → Option Nat
  | [] => found
  | t :: ts =>
    if t.isNewline then found
    else if t.isSpace then commentEnd (i + 1) found ts
    else if t.isComment then commentEnd (i + 1) (some (i + 1)) ts
    else none

def splitRound (d : Delimiter) (ts : List Token) (s : Groups) (i : Nat) (t : Token) :
    Run (Round Groups (List (List Token))) := do
  let (level, nesting) ← stepDepth s.nesting t
  let s := { s with nesting }
  match d with
  | .comma =>
    if t = .comma ∧ level = 0 then
      match commentEnd (i + 1) none (ts.drop (i + 1)) with
      | some stop => do
        let comments ← range ts (i + 1) stop
        return .next (s.add comments).cut stop
      | none => return .next s.cut (i + 1)
    else return .next (s.add [t]) (i + 1)
  | .boolean =>
    match keywordAt level t with
    | some .BETWEEN => return .next ({ s with between := s.between + 1 }.add [t]) (i + 1)
    | some .AND =>
      if 0 < s.between then do
        let between ← minus s.between 1
        return .next ({ s with between }.add [t]) (i + 1)
      else return .next ((if s.current.any Token.isCode then s.cut else s).add [t]) (i + 1)
    | some .OR => return .next ((if s.current.any Token.isCode then s.cut else s).add [t]) (i + 1)
    | _ => return .next (s.add [t]) (i + 1)

def splitItems (d : Delimiter) (s : Text) : Run (List Item) := do
  let ts ← lex s
  let groups ← walk ts (splitRound d ts) (fun s => .ok s.all) {} 0
  return (← groups.mapM fromTokens).filterMap id

section
variable {p : Token → Bool}

theorem dropEndWhile_cons (t : Token) (ts : List Token) : dropEndWhile p (t :: ts) =
    if dropEndWhile p ts = [] then dropEndWhile p [t] else t :: dropEndWhile p ts := by
  split
  · next h =>
    have hall : ∀ u ∈ ts, p u := by
      have := dropEndWhile_append_takeEndWhile p ts
      rw [h, List.nil_append] at this
      rw [← this]; exact takeEndWhile_all p ts
    exact (dropEndWhile_append_all hall [t]).1
  · next h => exact dropEndWhile_append h [t]

end

def isOnLine (t : Token) : Bool := t.isTrivia && !t.isNewline

theorem lineComments_eq (ts : List Token) : lineComments ts =
    if (ts.dropWhile isOnLine).head?.all Token.isNewline then dropEndWhile Token.isSpace (ts.takeWhile isOnLine)
    else [] := by
  have h := List.takeWhile_append_dropWhile (p := isOnLine) (l := ts)
  change (match ts.dropWhile isOnLine with
    | [] => dropEndWhile Token.isSpace ts
    | t :: _ => if t.isNewline then dropEndWhile Token.isSpace (ts.takeWhile isOnLine) else []) = _
  cases e : ts.dropWhile isOnLine with
  | nil =>
    rw [e, List.append_nil] at h
    simp only [h, List.head?_nil, Option.all_none, if_true]
  | cons t us => rfl

theorem commentEnd_eq (ts : List Token) (i : Nat) (found : Option Nat) :
    commentEnd i found ts =
      if (ts.dropWhile isOnLine).head?.all Token.isNewline then
        if lineComments ts = [] then found else some (i + (lineComments ts).length)
      else none := by
  induction ts generalizing i found with
  | nil => rfl
  | cons t ts ih =>
    rw [commentEnd, ih, ih, lineComments_eq (t :: ts), lineComments_eq ts]
    by_cases hline : isOnLine t
    · obtain ⟨htrivia, hn⟩ : t.isTrivia ∧ t.isNewline = false := by simpa [isOnLine] using hline
      rw [List.dropWhile_cons_of_pos hline, List.takeWhile_cons_of_pos hline, dropEndWhile_cons]
      simp only [hn, Bool.false_eq_true, if_false]
      cases hs : t.isSpace with
      | true =>
        have hd : dropEndWhile Token.isSpace [t] = [] := by simp [dropEndWhile, hs]
        simp only [hd, if_true]
        split_ifs <;> simp_all; omega
      | false =>
        have hc : t.isComment := by simpa [Token.isTrivia, hs] using htrivia
        have hd : dropEndWhile Token.isSpace [t] = [t] := by simp [dropEndWhile, hs]
        simp only [hd, hc, Bool.false_eq_true, if_false, if_true]
        split_ifs <;> simp_all; omega
    · simp only [List.dropWhile_cons_of_neg hline, List.takeWhile_cons_of_neg hline, List.head?_cons, Option.all_some]
      cases hn : t.isNewline with
      | true => rfl
      | false =>
        have ht : t.isTrivia = false := by simpa [isOnLine, hn] using hline
        obtain ⟨hs, hc⟩ : t.isSpace = false ∧ t.isComment = false := by simpa [Token.isTrivia] using ht
        simp [hs, hc]

section
variable {ts a b : List Token} {s : Groups}

theorem splitRound_comma (e : ts = a ++ .comma :: b) (hd : s.nesting.depth = 0) :
    splitRound .comma ts s a.length .comma =
      .ok (.next (s.add (lineComments b)).cut (a.length + 1 + (lineComments b).length)) := by
  obtain ⟨rest, hrest⟩ := lineComments_isPrefix b
  have hdrop : ts.drop (a.length + 1) = b := by rw [e]; simp
  have hrange : range ts (a.length + 1) (a.length + 1 + (lineComments b).length) = .ok (lineComments b) := by
    have e' : ts = a ++ [.comma] ++ lineComments b ++ rest := by
      rw [e, List.append_assoc, List.append_assoc, hrest]; simp
    rw [e']; exact range_append _ _ _ (by simp) (by simp)
  have hlevel : s.nesting.levelOf .comma = 0 := hd
  rw [splitRound, stepDepth_eq, ok_bind]
  simp only [hlevel, and_self, if_true, hdrop, commentEnd_eq]
  by_cases hempty : lineComments b = []
  · simp [hempty, Groups.add, Groups.cut, Nesting.step]
  · have hline : (b.dropWhile isOnLine).head?.all Token.isNewline := by
      by_contra h
      exact hempty (by rw [lineComments_eq, if_neg h])
    simp only [hline, hempty, if_true, if_false, hrange, ok_bind]; rfl

theorem splitRound_other {t : Token} (h : ¬(t = .comma ∧ s.nesting.depth = 0)) (i : Nat) :
    splitRound .comma ts s i t = .ok (.next ({ s with nesting := s.nesting.step t }.add [t]) (i + 1)) := by
  have hlevel : ¬(t = .comma ∧ s.nesting.levelOf t = 0) := fun ⟨ht, hl⟩ => h ⟨ht, by rw [ht] at hl; exact hl⟩
  rw [splitRound, stepDepth_eq, ok_bind]
  simp only [hlevel, if_false]; rfl

end

theorem walk_comma {ts : List Token} (n : Nesting) (b : List Token) {a : List Token} (e : ts = a ++ b) {s : Groups}
    (hn : s.nesting = n) : walk ts (splitRound .comma ts) (fun s => .ok s.all) s a.length =
      .ok (s.done ++ (commaGroups n b).modifyHead (s.current ++ ·)) := by
  fun_induction commaGroups n b generalizing a s with
  | case1 n => rw [walk_end (by simp [e])]; simp [Groups.all]
  | case2 n t b h ih =>
    obtain ⟨rfl, hd⟩ := h
    obtain ⟨rest, hrest⟩ := lineComments_isPrefix b
    have hnext : a.length + 1 + (lineComments b).length = (a ++ .comma :: lineComments b).length := by simp; omega
    have hbehind : b.drop (lineComments b).length = rest := by
      have := @List.drop_left _ (lineComments b) rest
      rwa [hrest] at this
    have e' : ts = a ++ .comma :: lineComments b ++ b.drop (lineComments b).length := by
      rw [hbehind, e, List.append_assoc, List.cons_append, hrest]
    rw [walk_next (getElem?_split e) (splitRound_comma e (hn ▸ hd)) (by omega), hnext,
      ih e' (s := (s.add (lineComments b)).cut) hn]
    simp only [Groups.add, Groups.cut, List.append_assoc, List.singleton_append, List.nil_append, List.modifyHead_cons]
    cases commaGroups n (b.drop (lineComments b).length) <;> rfl
  | case3 n t b h ih =>
    have e' : ts = a ++ [t] ++ b := by rw [e, List.append_assoc, List.singleton_append]
    have ih := ih e' (s := { s with nesting := s.nesting.step t }.add [t]) (congrArg (Nesting.step · t) hn)
    rw [List.length_append, List.length_singleton] at ih
    rw [walk_next (getElem?_split e) (splitRound_other (by rwa [hn]) _) (Nat.lt_succ_self _), ih]
    simp only [Groups.add, ← modifyHead_append, List.singleton_append]

def conditionState (s : Groups) (t : Token) : Groups :=
  let (between, cuts) := conditionStep s.between (s.nesting.topKeyword t)
  let s := { s with nesting := s.nesting.step t, between }
  (if cuts && s.current.any Token.isCode then s.cut else s).add [t]

theorem splitRound_boolean (ts : List Token) (s : Groups) (i : Nat) (t : Token) :
    splitRound .boolean ts s i t = .ok (.next (conditionState s t) (i + 1)) := by
  rw [splitRound, stepDepth_eq, ok_bind]
  simp only [keywordAt_levelOf, conditionState]
  cases s.nesting.topKeyword t with
  | none => simp [conditionStep]
  | some k =>
    cases k with
    | AND =>
      by_cases hb : 0 < s.between
      · simp [conditionStep, hb, minus_of_le (Nat.one_le_of_lt hb)]
      · obtain hb : s.between = 0 := Nat.eq_zero_of_not_pos hb
        simp [conditionStep, hb]
    | _ => simp [conditionStep]

theorem isCode_of_cuts {between : Nat} {n : Nesting} {t : Token} (h : (conditionStep between (n.topKeyword t)).2) :
    t.isCode := by
  cases t with
  | word => rfl
  | _ => simp [Nesting.topKeyword, Token.keyword, conditionStep] at h

theorem walk_boolean {ts b a : List Token} (e : ts = a ++ b) (s : Groups) :
    walk ts (splitRound .boolean ts) (fun s => .ok s.all) s a.length =
      .ok (s.done ++ (conditionGroups s.nesting s.between (s.current.any Token.isCode) b).modifyHead (s.current ++ ·)) := by
  induction b generalizing a s with
  | nil => rw [walk_end (by simp [e])]; simp [Groups.all, conditionGroups]
  | cons t b ih =>
    have e' : ts = a ++ [t] ++ b := by rw [e, List.append_assoc, List.singleton_append]
    have ih := ih e' (conditionState s t)
    rw [List.length_append, List.length_singleton] at ih
    rw [walk_next (getElem?_split e) (splitRound_boolean ..) (Nat.lt_succ_self _), ih, conditionGroups, conditionState]
    have hcode : (conditionStep s.between (s.nesting.topKeyword t)).2 → t.isCode := isCode_of_cuts
    cases hs : conditionStep s.between (s.nesting.topKeyword t) with
    | mk between cuts =>
      rw [hs] at hcode
      by_cases hcut : (cuts && s.current.any Token.isCode) = true
      · obtain ⟨hc, hstart⟩ := Bool.and_eq_true_iff.mp hcut
        obtain rfl : cuts = true := hc
        simp only [hstart, hcode rfl, Bool.true_and, if_true, Groups.cut, Groups.add, Bool.true_or, List.append_assoc,
          List.singleton_append, List.nil_append, List.any_cons, List.modifyHead_cons, List.append_nil]
      · simp only [hcut, if_false, Groups.add, ← modifyHead_append, List.singleton_append, List.any_append,
          List.any_cons, List.any_nil, Bool.or_false, Bool.false_eq_true]

theorem mem_of_mem_commaGroups {n : Nesting} {ts g : List Token} {t : Token} (hg : g ∈ commaGroups n ts) (ht : t ∈ g) :
    t ∈ ts := by
  refine commaGroups_induction (P := fun _ ts gs => ∀ g ∈ gs, ∀ t ∈ g, t ∈ ts) ?_ ?_ n ts g hg t ht
  · intro _ ts _ g hg t ht
    exact List.mem_singleton.mp hg ▸ ht
  · intro _ a lc rest gs _ _ _ _ ih g hg t ht
    rcases List.mem_cons.mp hg with rfl | hg
    · rcases List.mem_append.mp ht with h | h <;> simp [h]
    · simp [ih g hg t ht]

theorem mem_of_mem_conditionGroups {ts g : List Token} {t : Token} (hg : g ∈ conditionGroups {} 0 false ts) (ht : t ∈ g) :
    t ∈ ts := by
  rw [← (conditionGroups_flatten {} 0 false ts).2]
  exact List.mem_flatten_of_mem hg ht

theorem mapM_fromTokens {gs : List (List Token)} (h : ∀ g ∈ gs, ∀ t ∈ g, t.Formed) :
    gs.mapM fromTokens = .ok (gs.map Item.ofTokens?) := mapM_eq_ok fun g hg => fromTokens_eq (h g hg)

theorem splitItems_comma (s : Text) : splitItems .comma s = .ok (listItems (tokenize s)) := by
  have h : walk (tokenize s) (splitRound .comma (tokenize s)) (fun s => .ok s.all) {} 0 =
      .ok (commaGroups {} (tokenize s)) := by
    rw [← id_eq (commaGroups {} (tokenize s)), ← List.modifyHead_id]
    exact walk_comma {} (tokenize s) (a := []) rfl rfl
  rw [splitItems, lex_eq, ok_bind, h, ok_bind,
    mapM_fromTokens fun g hg t ht => formed_of_mem (mem_of_mem_commaGroups hg ht)]
  simp [listItems, List.filterMap_map]

theorem splitItems_boolean (s : Text) : splitItems .boolean s = .ok (conditionItems (tokenize s)) := by
  have h : walk (tokenize s) (splitRound .boolean (tokenize s)) (fun s => .ok s.all) {} 0 =
      .ok (conditionGroups {} 0 false (tokenize s)) := by
    rw [← id_eq (conditionGroups {} 0 false (tokenize s)), ← List.modifyHead_id]
    exact walk_boolean (a := []) rfl {}
  rw [splitItems, lex_eq, ok_bind, h, ok_bind,
    mapM_fromTokens fun g hg t ht => formed_of_mem (mem_of_mem_conditionGroups hg ht)]
  simp [conditionItems, List.filterMap_map]

end SqlLayout.Checked

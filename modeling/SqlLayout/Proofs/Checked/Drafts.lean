import SqlLayout.Proofs.Locality
import SqlLayout.Proofs.Checked.Openings

/-!
# Drafts by line index

A draft takes the lines of a page by their indices and cuts its block out of
them.
-/

namespace SqlLayout.Checked

/-! ## Questions about a line -/

def definesCursor (l : Line) : Run Bool :=
  match l.code.findIdx? (Token.isKeyword .CURSOR) with
  | none => .ok false
  | some pos => do
    let behind ← range l.code pos l.code.length
    return l.firstKeyword = some .DECLARE || behind.any (Token.isKeyword .FOR)

theorem definesCursor_eq (l : Line) : definesCursor l = .ok l.definesCursor := by
  rw [definesCursor, Line.definesCursor]
  rcases findIdx?_split (Token.isKeyword .CURSOR) l.code with ⟨hall, h⟩ | ⟨a, t, b, e, ha, ht, h⟩
  · have hdrop : l.code.dropWhile (fun t => !t.isKeyword .CURSOR) = [] :=
      List.dropWhile_eq_nil_iff.mpr fun t ht => by simp [hall t ht]
    rw [h, hdrop]
  · have hdrop : l.code.dropWhile (fun t => !t.isKeyword .CURSOR) = t :: b := by
      rw [e, List.dropWhile_append_of_pos fun u hu => by simp [ha u hu], List.dropWhile_cons_of_neg (by simp [ht])]
    have hrange : range l.code a.length l.code.length = .ok (t :: b) := by rw [e]; exact range_tail a (t :: b)
    rw [h, hdrop]
    simp only [hrange, ok_bind, pure_eq_ok]

def classify (l : Line) : Run BlockKind := do
  let first := l.code.head?.bind Token.keyword
  let second := l.code[1]?.bind Token.keyword
  if first = some .WITH || (l.code.head? = some .semicolon && second = some .WITH) then return .withStatement
  else if (← definesCursor l) || first.any Keyword.isCursorCommand then return .cursor
  else if first = some .DECLARE then return .declare
  else if first = some .SELECT && !l.hasKeyword .INTO && !l.hasKeyword .WITH then return .select
  else if (first = some .DROP && second = some .TABLE) || intoTemporary l.code ||
      l.code.any (fun t => t.keyword.any modifies) then return .complex
  else return .generic

theorem classify_eq (l : Line) : classify l = .ok l.classify := by
  simp only [classify, Line.classify, definesCursor_eq, ok_bind, pure_eq_ok]
  repeat' split
  all_goals rfl

/-! ## Collecting lines -/

def tallyToken (s : Tally) (t : Token) : Run Tally := do
  let (level, nesting) ← stepDepth s.nesting t
  let unterminated := s.unterminated || (← isUnterminated t)
  if t.isCode then
    let s := s.keyword t.keyword
    return { s with nesting, unterminated, hasMain := s.hasMain || (keywordAt level t).any startsMain, lastCode := some t }
  else return { s with nesting, unterminated }

theorem tallyToken_eq (s : Tally) (t : Token) : tallyToken s t = .ok (s.step t) := by
  have hnesting : (s.keyword t.keyword).nesting = s.nesting := by
    unfold Tally.keyword
    split <;> rfl
  simp only [tallyToken, stepDepth_eq, isUnterminated_eq, ok_bind, Tally.step]
  split
  · simp only [Tally.code, hnesting, keywordAt_levelOf, Tally.keyword_unterminated, pure_eq_ok]
  · rfl

def push (d : Draft) (l : Line) : Run Draft := do
  return { d with lines := d.lines ++ [l], tally := ← l.tokens.foldlM tallyToken d.tally }

theorem push_eq (d : Draft) (l : Line) : push d l = .ok (d.push [l]) := by
  have h (ts : List Token) (s : Tally) : ts.foldlM tallyToken s = .ok (ts.foldl Tally.step s) := by
    induction ts generalizing s with
    | nil => rfl
    | cons t ts ih => rw [List.foldlM_cons, tallyToken_eq, ok_bind, ih, List.foldl_cons]
  rw [push, h, Draft.push, List.flatMap_singleton]; rfl

def Page.append (p : Page) (d : Draft) (i j : Nat) : Run Draft :=
  (List.range' i (j - i)).foldlM (fun d k => do push d (← p.line k)) d

def Page.texts (p : Page) (i j : Nat) : Run (List Text) :=
  (List.range' i (j - i)).mapM fun k => do return (← p.line k).text

section
variable {s : Text} {above ls below : List Line}

theorem append_eq (e : lines (tokenize s) = above ++ ls ++ below) (d : Draft) :
    (pageOf s).append d above.length (above ++ ls).length = .ok (d.push ls) := by
  rw [Page.append, List.length_append, Nat.add_sub_cancel_left]
  induction ls generalizing above d with
  | nil => rw [Draft.push, List.append_nil]; rfl
  | cons l ls ih =>
    have hline : (pageOf s).line above.length = .ok l := line_append (show lines (tokenize s) = above ++ l :: (ls ++ below) by rw [e]; simp)
    have ih := ih (show lines (tokenize s) = (above ++ [l]) ++ ls ++ below by rw [e]; simp) (d.push [l])
    rw [List.length_append, List.length_singleton] at ih
    rw [List.length_cons, List.range'_succ, List.foldlM_cons, hline, ok_bind, push_eq, ok_bind, ih, Draft.push_push]; rfl

theorem texts_eq (e : lines (tokenize s) = above ++ ls ++ below) :
    (pageOf s).texts above.length (above ++ ls).length = .ok (ls.map Line.text) := by
  rw [Page.texts, List.length_append, Nat.add_sub_cancel_left]
  induction ls generalizing above with
  | nil => rfl
  | cons l ls ih =>
    have hline : (pageOf s).line above.length = .ok l := line_append (show lines (tokenize s) = above ++ l :: (ls ++ below) by rw [e]; simp)
    have ih := ih (show lines (tokenize s) = (above ++ [l]) ++ ls ++ below by rw [e]; simp)
    rw [List.length_append, List.length_singleton] at ih
    rw [List.length_cons, List.range'_succ, List.mapM_cons, hline, ok_bind, pure_eq_ok, ok_bind, ih]; rfl

end

/-! ## The block of a draft -/

def blockOf (d : Draft) : Run (Option Block) :=
  let texts := d.lines.map Line.text
  match texts.findIdx? (!isBlankText ·) with
  | none => .ok none
  | some first =>
    if d.tally.unterminated then do
      let last ← minus texts.length 1
      return some ⟨.generic, joinLines (← range texts first (last + 1))⟩
    else
      match lastIdx? (!isBlankText ·) texts with
      | none => .ok none
      | some last => do return some ⟨d.kind.getD .commentGroup, joinLines (← range texts first (last + 1))⟩

theorem dropEndWhile_split {α : Type} (p : α → Bool) {l : List α} (h : l.any (!p ·)) :
    ∃ a x b, l = a ++ x :: b ∧ p x = false ∧ (∀ y ∈ b, p y) ∧ dropEndWhile p l = a ++ [x] := by
  have hnone : dropEndWhile p l ≠ [] := fun hnil => by
    have hall : ∀ x ∈ l, p x := by simpa [dropEndWhile] using hnil
    obtain ⟨x, hx, hp⟩ := List.any_eq_true.mp h
    simp [hall x hx] at hp
  obtain ⟨a, x, e⟩ := List.eq_nil_or_concat (dropEndWhile p l) |>.resolve_left hnone
  rw [List.concat_eq_append] at e
  refine ⟨a, x, takeEndWhile p l, ?_, getLast_dropEndWhile p l x (by simp [e]), takeEndWhile_all p l, e⟩
  rw [← List.singleton_append, ← List.append_assoc, ← e, dropEndWhile_append_takeEndWhile]

theorem blockOf_eq (d : Draft) : blockOf d = .ok d.block? := by
  simp only [blockOf, Draft.block?]
  generalize d.lines.map Line.text = texts
  rcases findIdx?_split (!isBlankText ·) texts with ⟨hall, h⟩ | ⟨front, l, rest, e, hfront, hl, h⟩
  · have hdrop : texts.dropWhile isBlankText = [] :=
      List.dropWhile_eq_nil_iff.mpr fun x hx => by simpa using hall x hx
    rw [h, hdrop, if_pos rfl]
  have hdrop : texts.dropWhile isBlankText = l :: rest := by
    rw [e, List.dropWhile_append_of_pos fun x hx => by simpa using hfront x hx,
      List.dropWhile_cons_of_neg (by simpa using hl)]
  simp only [h, hdrop, if_neg (List.cons_ne_nil l rest)]
  have hpos : 1 ≤ texts.length := by rw [e]; simp; omega
  split
  · have hlast : minus texts.length 1 = .ok (texts.length - 1) := minus_of_le hpos
    have hlength : texts.length - 1 + 1 = texts.length := Nat.sub_add_cancel hpos
    have hrange : range texts front.length texts.length = .ok (l :: rest) := by rw [e]; exact range_tail _ _
    simp only [hlast, ok_bind, hlength, hrange, pure_eq_ok]
  · obtain ⟨a, x, b, hsplit, hx, hb, hend⟩ := dropEndWhile_split isBlankText (l := l :: rest) (by simp at hl; simp [hl])
    have e' : texts = front ++ a ++ x :: b := by rw [e, hsplit, List.append_assoc]
    have hlast : lastIdx? (!isBlankText ·) texts = some (front ++ a).length := by
      rw [e']; exact lastIdx?_last (fun y hy => by simp [hb y hy]) (by simp [hx]) _
    have hrange : range texts front.length ((front ++ a).length + 1) = .ok (a ++ [x]) := by
      rw [show texts = front ++ (a ++ [x]) ++ b by rw [e']; simp]
      exact range_append _ _ _ rfl (by simp; omega)
    rw [hlast, hend]
    simp only [hrange, ok_bind, pure_eq_ok]

end SqlLayout.Checked

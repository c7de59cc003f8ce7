import SqlLayout.Proofs.Breaks
import SqlLayout.Proofs.Upper

/-!
# Names behind dots

`names` reads off a text what stands right behind each of its dots: the name,
or nothing where there is space, another character or a keyword at which a
layout may cut. Only what comes between a dot and its name can change that, so
the names of a text are those of its parts wherever it is cut in front of
something else.
-/

namespace SqlLayout

/-- A layout may cut in front of it. -/
def Keyword.cuts : Keyword → Bool
  | .SELECT | .FROM | .WHERE | .GROUP | .HAVING | .ORDER => true
  | .JOIN | .APPLY | .INNER | .LEFT | .RIGHT | .FULL | .OUTER | .CROSS | .ON | .AS => true
  | .AND | .OR | .WHEN | .THEN | .ELSE | .END => true
  | .OVER | .PARTITION | .ROWS | .RANGE => true
  | _ => false

/-! ## Names of a text -/

def isNamePart (c : Char) : Bool := isWordChar c && !isBlank c

def unlessCut (w : Text) : Text := if (Keyword.ofWord? w).any Keyword.cuts then [] else w

@[simp] theorem unlessCut_nil : unlessCut [] = [] := ite_self []

def nameOf (s : Text) : Text := if s.head?.any startsWord then unlessCut (s.takeWhile isNamePart) else []

/-- What stands right behind each dot. -/
def names : Text → List Text
  | [] => []
  | c :: s => if c = '.' then nameOf s :: names s else names s

def namesIn (ls : List Text) : List Text := ls.flatMap names

@[simp] theorem names_nil : names [] = [] := rfl

@[simp] theorem nameOf_nil : nameOf [] = [] := rfl

@[simp] theorem namesIn_nil : namesIn [] = [] := rfl

@[simp] theorem namesIn_cons (l : Text) (ls : List Text) : namesIn (l :: ls) = names l ++ namesIn ls := rfl

@[simp] theorem namesIn_append (ls ms : List Text) : namesIn (ls ++ ms) = namesIn ls ++ namesIn ms :=
  List.flatMap_append

theorem namesIn_map {f : Text → Text} (h : ∀ l, names (f l) = names l) (ls : List Text) :
    namesIn (ls.map f) = namesIn ls := by
  simp [namesIn, List.flatMap_map, h]

def StopsName (s : Text) : Prop := s.head?.all fun c => !isNamePart c

theorem stopsName_cons {c : Char} (h : isNamePart c = false) (s : Text) : StopsName (c :: s) := by simp [StopsName, h]

theorem takeWhile_append_stops {s r : Text} (h : StopsName r) : (s ++ r).takeWhile isNamePart = s.takeWhile isNamePart := by
  induction s with
  | nil =>
    cases r with
    | nil => rfl
    | cons c r => exact List.takeWhile_cons_of_neg (by simpa [StopsName] using h)
  | cons c s ih =>
    by_cases hc : isNamePart c
    · rw [List.cons_append, List.takeWhile_cons_of_pos hc, List.takeWhile_cons_of_pos hc, ih]
    · rw [List.cons_append, List.takeWhile_cons_of_neg hc, List.takeWhile_cons_of_neg hc]

theorem nameOf_append {s r : Text} (h : StopsName r) : nameOf (s ++ r) = nameOf s := by
  rw [nameOf, takeWhile_append_stops h]
  cases s with
  | nil => simp
  | cons c s => rfl

theorem names_append {s r : Text} (h : StopsName r) : names (s ++ r) = names s ++ names r := by
  induction s with
  | nil => rfl
  | cons c s ih =>
    rw [List.cons_append, names, names, ih]
    split
    · rw [nameOf_append h, List.cons_append]
    · rfl

theorem names_append_left {s : Text} (h : '.' ∉ s) (r : Text) : names (s ++ r) = names r := by
  induction s with
  | nil => rfl
  | cons c s ih =>
    rw [List.mem_cons, not_or] at h
    rw [List.cons_append, names, if_neg (Ne.symm h.1), ih h.2]

theorem names_eq_nil {s : Text} (h : '.' ∉ s) : names s = [] := by simpa using names_append_left h []

theorem names_cons {c : Char} (h : c ≠ '.') (s : Text) : names (c :: s) = names s := if_neg h

theorem not_isNamePart_of_isBlank {c : Char} (h : isBlank c) : isNamePart c = false := by simp [isNamePart, h]

theorem dot_notMem_blank {w : Text} (h : w.all isBlank) : '.' ∉ w := fun hm => by
  have := List.all_eq_true.mp h '.' hm
  revert this
  decide

theorem stopsName_blank {w : Text} (h : w.all isBlank) : StopsName w := by
  cases w with
  | nil => rfl
  | cons c w => exact stopsName_cons (not_isNamePart_of_isBlank (List.all_eq_true.mp h c (by simp))) w

@[simp] theorem names_trimEnd (s : Text) : names (trimEnd s) = names s := by
  obtain ⟨w, e, hw⟩ := exists_trimEnd s
  conv_rhs => rw [e, names_append (stopsName_blank hw), names_eq_nil (dot_notMem_blank hw), List.append_nil]

@[simp] theorem names_trimStart (s : Text) : names (trimStart s) = names s := by
  conv_rhs => rw [← List.takeWhile_append_dropWhile (p := isBlank) (l := s),
    names_append_left (dot_notMem_blank List.all_takeWhile)]
  rfl

@[simp] theorem names_trim (s : Text) : names (trim s) = names s := by rw [trim, names_trimEnd, names_trimStart]

theorem dot_notMem_pad (n : Nat) : '.' ∉ pad n := by simp [pad]

@[simp] theorem names_pad_append (n : Nat) (s : Text) : names (pad n ++ s) = names s :=
  names_append_left (dot_notMem_pad n) s

theorem names_intercalate {c : Char} (hc : isNamePart c = false) (hd : c ≠ '.') (ls : List Text) :
    names ([c].intercalate ls) = namesIn ls := by
  induction ls with
  | nil => rfl
  | cons l ls ih =>
    cases ls with
    | nil => simp
    | cons m ls =>
      rw [List.intercalate_cons_cons, List.append_assoc, List.singleton_append, names_append (stopsName_cons hc _),
        names_cons hd, ih]
      rfl

theorem names_joinLines (ls : List Text) : names (joinLines ls) = namesIn ls :=
  names_intercalate (by decide) (by decide) ls

@[simp] theorem namesIn_splitLines (s : Text) : namesIn (splitLines s) = names s := by
  rw [← names_joinLines, joinLines_splitLines]

theorem namesIn_filter (ls : List Text) : namesIn (ls.filter (· ≠ [])) = namesIn ls := flatMap_filter_ne_nil names_nil ls

@[simp] theorem namesIn_trimmedLines (s : Text) : namesIn (trimmedLines s) = names s := by
  rw [trimmedLines, namesIn_filter, namesIn_map names_trim, namesIn_splitLines]

/-! ## Keywords -/

theorem isNamePart_toUpper (c : Char) : isNamePart c.toUpper = isNamePart c := by
  rw [isNamePart, isWordChar_toUpper, isBlank_toUpper, isNamePart]

theorem Keyword.mem_table {w : Text} {k : Keyword} (h : Keyword.ofWord? w = some k) : (upper w, k) ∈ Keyword.table := by
  obtain ⟨l₁, l₂, e, -⟩ := List.lookup_eq_some_iff.mp h
  rw [e]
  simp

theorem all_isNamePart_of_keyword {w : Text} {k : Keyword} (h : Keyword.ofWord? w = some k) : w.all isNamePart := by
  have htable : ∀ p ∈ Keyword.table, p.1.all isNamePart := by decide +kernel
  have := htable _ (Keyword.mem_table h)
  simpa [upper, isNamePart_toUpper] using this

theorem dot_notMem_keyword {t : Token} {k : Keyword} (h : t.keyword = some k) : '.' ∉ t.text := by
  cases t with
  | word w => exact fun hm => absurd (List.all_eq_true.mp (all_isNamePart_of_keyword h) '.' hm) (by decide)
  | _ => cases h

/-! ## Names of tokens -/

namespace Token

def name : Token → Text
  | word w => nameOf w
  | _ => []

def inner : Token → List Text
  | stringLiteral s | quotedIdentifier s | number s | lineComment s | blockComment s => names s
  | _ => []

theorem name_of_keyword {t : Token} {k : Keyword} (h : t.keyword = some k) (hk : k.cuts) : t.name = [] := by
  cases t with
  | word w =>
    have hw : w.takeWhile isNamePart = w := List.takeWhile_eq_self_iff.mpr (by simpa using all_isNamePart_of_keyword h)
    have he : Keyword.ofWord? w = some k := h
    simp [name, nameOf, hw, unlessCut, he, hk]
  | _ => rfl

theorem name_of_isTrivia {t : Token} (h : t.isTrivia) : t.name = [] := by
  cases t <;> first | rfl | cases h

theorem inner_of_isSpace {t : Token} (h : t.isSpace) : t.inner = [] := by
  cases t <;> first | rfl | cases h

end Token

def tokenNames : List Token → List Text
  | [] => []
  | t :: ts => (if t = .dot then [ts.head?.elim [] Token.name] else t.inner) ++ tokenNames ts

def Nameless (ts : List Token) : Prop := ts.head?.elim [] Token.name = []

@[simp] theorem tokenNames_nil : tokenNames [] = [] := rfl

theorem tokenNames_cons {t : Token} (h : t ≠ .dot) (ts : List Token) : tokenNames (t :: ts) = t.inner ++ tokenNames ts := by
  rw [tokenNames, if_neg h]

@[simp] theorem nameless_nil : Nameless [] := rfl

@[simp] theorem nameless_cons {t : Token} {ts : List Token} : Nameless (t :: ts) ↔ t.name = [] := Iff.rfl

theorem nameless_append {ts us : List Token} (h : Nameless ts) (h' : Nameless us) : Nameless (ts ++ us) := by
  cases ts with
  | nil => exact h'
  | cons t ts => exact h

/-- Tokens behind others, unless a name comes behind its dot. -/
theorem tokenNames_append {ts us : List Token} (h : ts.getLast? ≠ some .dot ∨ Nameless us) :
    tokenNames (ts ++ us) = tokenNames ts ++ tokenNames us := by
  induction ts with
  | nil => rfl
  | cons t ts ih =>
    cases ts with
    | nil =>
      rw [List.singleton_append, tokenNames, tokenNames, tokenNames_nil, List.append_nil]
      split
      · next e =>
        have h : us.head?.elim [] Token.name = [] := h.resolve_left (by simp [e])
        rw [h]
        rfl
      · rfl
    | cons u ts =>
      rw [List.getLast?_cons_cons] at h
      have hh : (u :: ts ++ us).head? = (u :: ts).head? := rfl
      rw [List.cons_append, tokenNames, ih h, hh, tokenNames.eq_def (t :: u :: ts), List.append_assoc]

theorem tokenNames_flatten {gs : List (List Token)} (h : ∀ g ∈ gs, Nameless g) :
    Nameless gs.flatten ∧ tokenNames gs.flatten = gs.flatMap tokenNames := by
  induction gs with
  | nil => exact ⟨rfl, rfl⟩
  | cons g gs ih =>
    obtain ⟨hn, e⟩ := ih fun g hg => h g (by simp [hg])
    exact ⟨nameless_append (h g (by simp)) hn, by rw [List.flatten_cons, tokenNames_append (.inr hn), e, List.flatMap_cons]⟩

theorem tokenNames_trivia {ts : List Token} (h : ∀ t ∈ ts, t.isTrivia) : tokenNames ts = (solids ts).flatMap Token.inner := by
  induction ts with
  | nil => rfl
  | cons t ts ih =>
    have ht : t ≠ .dot := by
      rintro rfl
      cases h .dot (by simp)
    rw [tokenNames_cons ht, ih fun u hu => h u (by simp [hu]), solids_cons]
    split
    · next hs => rw [Token.inner_of_isSpace hs, List.nil_append]
    · rfl

/-! ## Names of spelled tokens -/

theorem nameOf_of_head {c : Char} (h : startsWord c = false) (s : Text) : nameOf (c :: s) = [] := by simp [nameOf, h]

/-- Behind a character that is neither part of a name nor a dot. -/
theorem names_append_closed {s : Text} {c : Char} (hc : s.getLast? = some c) (hn : isNamePart c = false) (hd : c ≠ '.')
    (r : Text) : names (s ++ r) = names s ++ names r := by
  obtain ⟨a, rfl⟩ := List.getLast?_eq_some_iff.mp hc
  rw [List.append_assoc, List.singleton_append, names_append (stopsName_cons hn r), names_append (stopsName_cons hn []), names_cons hd,
    names_cons hd, names_nil, List.append_nil]

theorem dot_notMem_digits {ds : Text} (h : ds.all Char.isDigit) : '.' ∉ ds := fun hm =>
  absurd (List.all_eq_true.mp h '.' hm) (by decide)

theorem names_number_append {w : Text} (hf : (Token.number w).Formed) (r : Text) :
    names (w ++ r) = names w ++ names r := by
  obtain ⟨ds, hds, ⟨rfl, -⟩ | ⟨d, fs, rfl, hd, hfs⟩⟩ := hf
  · rw [names_append_left (dot_notMem_digits hds), names_eq_nil (dot_notMem_digits hds), List.nil_append]
  · have hw : startsWord d = false := by
      by_contra h
      exact (startsWord_ne (by simpa using h)).2.1 hd
    have hfs : '.' ∉ d :: fs := dot_notMem_digits (by simpa [hd] using hfs)
    have hone : names ('.' :: d :: fs) = [[]] := by
      rw [names, if_pos rfl, nameOf_of_head hw, names_eq_nil hfs]
    have hmore : names ('.' :: d :: (fs ++ r)) = [] :: names r := by
      rw [names, if_pos rfl, nameOf_of_head hw, ← List.cons_append, names_append_left hfs]
    rw [List.append_assoc, names_append_left (dot_notMem_digits hds), names_append_left (dot_notMem_digits hds), hone]
    exact hmore

namespace Token

/-- The characters behind the token are not read as part of its names. -/
structure Leaves (t : Token) (r : Text) : Prop where
  closed : t.isUnterminated → r = []
  stops : t.isLineComment ∨ (∃ w, t = word w) → StopsName r

theorem names_append {t : Token} {r : Text} (hf : t.Formed) (hr : t.Leaves r) (ht : t ≠ dot) :
    names (t.text ++ r) = t.inner ++ names r := by
  -- a token with an end, and one without
  have quoted : ∀ {w : Text} {c : Char}, (t.isUnterminated = false → w.getLast? = some c) →
      isNamePart c = false → c ≠ '.' → names (w ++ r) = names w ++ names r := by
    intro w c hw hc hd
    cases hu : t.isUnterminated with
    | true => simp [hr.closed hu]
    | false => exact names_append_closed (hw hu) hc hd r
  cases t with
  | dot => exact absurd rfl ht
  | word w =>
    refine names_append_left (fun hm => ?_) r
    exact absurd (List.all_eq_true.mp (word_chars hf) '.' hm) (by decide)
  | operator w =>
    refine names_append_left (fun hm => ?_) r
    obtain ⟨c, hc, hw⟩ := hf
    have hne := (isOperatorChar_iff.mp hc).2.2.2.2.2.2.1
    rcases hw with rfl | ⟨d, rfl, hp⟩
    · exact hne (by simpa [text] using Eq.symm (List.mem_singleton.mp hm))
    · rcases List.mem_cons.mp hm with rfl | hm
      · exact hne rfl
      · obtain rfl : '.' = d := by simpa using hm
        simp [isOperatorPair] at hp
  | whitespace w =>
    refine names_append_left (fun hm => ?_) r
    exact absurd (List.all_eq_true.mp hf.2 '.' hm) (by decide)
  | number w => exact names_number_append hf r
  | lineComment w => exact SqlLayout.names_append (hr.stops (.inl rfl))
  | blockComment w => exact quoted (closed_blockComment hf) (by decide) (by decide)
  | stringLiteral w =>
    obtain ⟨b, rfl, -⟩ := hf
    refine quoted (c := '\'') (fun hu => ?_) (by decide) (by decide)
    have hb : closesAtEnd '\'' b := by simpa [isUnterminated, isEnclosed] using hu
    simp [text, List.getLast?_cons, closesAtEnd_getLast hb]
  | quotedIdentifier w =>
    obtain ⟨b, ⟨rfl, -⟩ | ⟨rfl, -⟩⟩ := hf
    · refine quoted (c := '"') (fun hu => ?_) (by decide) (by decide)
      have hb : closesAtEnd '"' b := by simpa [isUnterminated, isEnclosed] using hu
      simp [text, List.getLast?_cons, closesAtEnd_getLast hb]
    · refine quoted (c := ']') (fun hu => ?_) (by decide) (by decide)
      have hb : closesAtEnd ']' b := by simpa [isUnterminated, isEnclosed] using hu
      simp [text, List.getLast?_cons, closesAtEnd_getLast hb]
  | _ => exact names_cons (by decide) r

theorem startsWord_head {t : Token} (hf : t.Formed) (ht : ∀ w, t ≠ word w) : t.text.head?.any startsWord = false := by
  cases t with
  | word w => exact absurd rfl (ht w)
  | whitespace w =>
    obtain ⟨c, w, rfl⟩ := List.exists_cons_of_ne_nil hf.1
    by_contra h
    have hs : startsWord c := by simpa [text] using h
    exact (startsWord_ne hs).1 (List.all_eq_true.mp hf.2 c (by simp))
  | lineComment w => obtain ⟨b, rfl, -⟩ := hf; exact (by decide : startsWord '-' = false)
  | blockComment w => obtain ⟨b, rfl, -⟩ := hf; exact (by decide : startsWord '/' = false)
  | stringLiteral w => obtain ⟨b, rfl, -⟩ := hf; exact (by decide : startsWord '\'' = false)
  | quotedIdentifier w =>
    obtain ⟨b, ⟨rfl, -⟩ | ⟨rfl, -⟩⟩ := hf
    · exact (by decide : startsWord '"' = false)
    · exact (by decide : startsWord '[' = false)
  | number w =>
    cases w with
    | nil => rfl
    | cons c w =>
      by_contra h
      have hs : startsWord c := by simpa [text] using h
      have hd := (number_head hf []).2.2.2
      simp [(startsWord_ne hs).2.1, (startsWord_ne hs).2.2.2.2.2.2.2.1] at hd
  | operator w =>
    obtain ⟨c, hc, hw⟩ := hf
    have hs := (isOperatorChar_iff.mp hc).2.1
    rcases hw with rfl | ⟨d, rfl, -⟩ <;> simpa [text] using hs
  | _ => decide

theorem nameOf_append {t : Token} {r : Text} (hf : t.Formed) (hr : t.Leaves r) : nameOf (t.text ++ r) = t.name := by
  have other : (∀ w, t ≠ word w) → nameOf (t.text ++ r) = [] := by
    intro ht
    obtain ⟨c, s, e⟩ := List.exists_cons_of_ne_nil hf.text_ne_nil
    have hs := startsWord_head hf ht
    rw [e] at hs ⊢
    exact nameOf_of_head (by simpa using hs) _
  cases t with
  | word w => exact SqlLayout.nameOf_append (hr.stops (.inr ⟨w, rfl⟩))
  | _ => exact other fun w h => by cases h

end Token

def Apart : List Token → Prop
  | [] => True
  | t :: ts => t.Formed ∧ t.Leaves (spell ts) ∧ Apart ts

theorem Apart.names_spell {ts : List Token} (h : Apart ts) : names (spell ts) = tokenNames ts := by
  induction ts with
  | nil => rfl
  | cons t ts ih =>
    obtain ⟨hf, hr, hts⟩ := h
    rw [spell_cons, tokenNames]
    split
    · next e =>
      have hhead : nameOf (spell ts) = ts.head?.elim [] Token.name := by
        cases ts with
        | nil => rfl
        | cons u ts => exact Token.nameOf_append hts.1 hts.2.1
      subst e
      rw [← hhead, ← ih hts]
      rfl
    · next e => rw [Token.names_append hf hr e, ih hts]

theorem stopsName_of_stops {s : Text} (h : !s.head?.any isWordChar) : StopsName s := by
  cases s with
  | nil => rfl
  | cons c s => simp_all [StopsName, isNamePart]

theorem Token.Stops.leaves {t : Token} {r : Text} (h : t.Stops r) : t.Leaves r where
  closed hu := by
    cases t with
    | blockComment w => exact h hu
    | stringLiteral w => exact h.1 hu
    | quotedIdentifier w => exact h.1 hu
    | _ => cases hu
  stops ht := by
    rcases ht with ht | ⟨w, rfl⟩
    · obtain ⟨c, rfl⟩ := Token.eq_lineComment ht
      cases r with
      | nil => rfl
      | cons d r =>
        obtain rfl : d = '\n' := by simpa [Token.Stops] using h
        rfl
    · exact stopsName_of_stops h

theorem Token.leaves_of_isSpace {t : Token} (h : t.isSpace) (r : Text) : t.Leaves r where
  closed hu := by rw [isUnterminated_of_isSpace h] at hu; cases hu
  stops ht := by
    obtain ⟨w, rfl⟩ := Token.eq_whitespace h
    rcases ht with ht | ⟨v, hv⟩
    · cases ht
    · cases hv

theorem Legible.apart {ts : List Token} (h : Legible ts) : Apart ts := by
  induction ts with
  | nil => trivial
  | cons t ts ih => exact ⟨h.1, h.2.1.elim (Token.leaves_of_isSpace · _) Token.Stops.leaves, ih h.2.2⟩

theorem Legible.names_spell {ts : List Token} (h : Legible ts) : names (spell ts) = tokenNames ts := h.apart.names_spell

theorem names_eq_tokenNames (s : Text) : names s = tokenNames (tokenize s) := by
  rw [← (legible_tokenize s).names_spell, spell_tokenize]

theorem nameless_trivia {ts : List Token} (h : ∀ t ∈ ts, t.isTrivia) : Nameless ts := by
  cases ts with
  | nil => rfl
  | cons t ts => exact Token.name_of_isTrivia (h t (by simp))

end SqlLayout

import SqlLayout.Proofs.Checked.Bounds

/-!
# A lexer over bytes

The lexer looks at one byte at a time and cuts the text where it stands. No
byte of a character beyond ASCII can end a token that the character is part
of, so each cut falls between characters (`lexToken_append`) and the tokens
are those of `tokenize` (`lex_eq`).
-/

namespace SqlLayout.Checked

/-! ## Bytes and characters -/

def utf8 (s : Text) : List UInt8 := s.flatMap String.utf8EncodeChar

@[simp] theorem utf8_nil : utf8 [] = [] := rfl

theorem utf8_cons (c : Char) (s : Text) : utf8 (c :: s) = String.utf8EncodeChar c ++ utf8 s := rfl

@[simp] theorem utf8_append (s t : Text) : utf8 (s ++ t) = utf8 s ++ utf8 t := List.flatMap_append

@[simp] theorem length_utf8 (s : Text) : (utf8 s).length = byteSize s := by
  induction s with
  | nil => rfl
  | cons c s ih => rw [utf8_cons, List.length_append, String.length_utf8EncodeChar, ih, byteSize]

theorem utf8_ascii {c : Char} (h : c.toNat < 128) : String.utf8EncodeChar c = [UInt8.ofNat c.toNat] := by
  rw [String.utf8EncodeChar, if_pos (show c.val.toNat ≤ 127 from Nat.le_of_lt_succ h)]; rfl

theorem le_of_mem_utf8 {c : Char} (h : 128 ≤ c.toNat) {b : UInt8} (hb : b ∈ String.utf8EncodeChar c) :
    128 ≤ b.toNat := by
  have high (n : Nat) : 128 ≤ (UInt8.ofNat (n % 64 + 128)).toNat ∧ 128 ≤ (UInt8.ofNat (n % 32 + 192)).toNat ∧
      128 ≤ (UInt8.ofNat (n % 16 + 224)).toNat ∧ 128 ≤ (UInt8.ofNat (n % 8 + 240)).toNat := by
    simp only [UInt8.toNat_ofNat']; omega
  have more {n : Nat} (hb : b ∈ [UInt8.ofNat (n % 64 + 128)]) : 128 ≤ b.toNat := by
    rw [List.mem_singleton.mp hb]; exact (high n).1
  simp only [String.utf8EncodeChar, if_neg (show ¬c.val.toNat ≤ 127 from Nat.not_le_of_lt h)] at hb
  split at hb
  · rcases List.mem_cons.mp hb with rfl | hb
    · exact (high _).2.1
    · exact more hb
  split at hb
  · rcases List.mem_cons.mp hb with rfl | hb
    · exact (high _).2.2.1
    rcases List.mem_cons.mp hb with rfl | hb
    · exact (high _).1
    · exact more hb
  · rcases List.mem_cons.mp hb with rfl | hb
    · exact (high _).2.2.2
    rcases List.mem_cons.mp hb with rfl | hb
    · exact (high _).1
    rcases List.mem_cons.mp hb with rfl | hb
    · exact (high _).1
    · exact more hb

/-- A test of bytes that gives the same answer on every byte of a character,
which is that of a test of characters. -/
def Agree (p : UInt8 → Bool) (q : Char → Bool) : Prop := ∀ c, ∀ b ∈ String.utf8EncodeChar c, p b = q c

/-- It is enough to compare the two on ASCII, and to know that both are
constant beyond. -/
theorem agree_of {p : UInt8 → Bool} {q : Char → Bool} (k : Bool) (hascii : ∀ n < 128, p (UInt8.ofNat n) = q (Char.ofNat n))
    (hbyte : ∀ n < 256, 128 ≤ n → p (UInt8.ofNat n) = k) (hchar : ∀ c : Char, 128 ≤ c.toNat → q c = k) : Agree p q := by
  intro c b hb
  by_cases hc : c.toNat < 128
  · rw [utf8_ascii hc, List.mem_singleton] at hb
    rw [hb, hascii _ hc, Char.ofNat_toNat]
  · have hl := le_of_mem_utf8 (Nat.le_of_not_lt hc) hb
    rw [hchar c (Nat.le_of_not_lt hc), ← hbyte b.toNat b.toNat_lt hl, UInt8.ofNat_toNat]

def byte (c : Char) : UInt8 := UInt8.ofNat c.toNat

theorem agree_eq {k : Char} (hk : k.toNat < 128) : Agree (· = byte k) (· = k) := by
  intro c b hb
  by_cases hc : c.toNat < 128
  · rw [utf8_ascii hc, List.mem_singleton] at hb
    have e : (UInt8.ofNat c.toNat).toNat = (UInt8.ofNat k.toNat).toNat ↔ c.toNat = k.toNat := by
      simp only [UInt8.toNat_ofNat']; omega
    simp only [hb, byte, ← UInt8.toNat_inj, e, Char.toNat_inj]
  · have hl := le_of_mem_utf8 (Nat.le_of_not_lt hc) hb
    have hb : b ≠ byte k := fun e => by
      rw [e, byte, UInt8.toNat_ofNat'] at hl; omega
    have hc : c ≠ k := fun e => hc (e ▸ hk)
    simp [hb, hc]

theorem exists_cons_utf8 (c : Char) (s : Text) :
    ∃ b ∈ String.utf8EncodeChar c, ∃ bs, utf8 (c :: s) = b :: bs := by
  obtain ⟨b, bs, e⟩ := List.exists_cons_of_ne_nil (String.utf8EncodeChar_ne_nil (c := c))
  exact ⟨b, by simp [e], bs ++ utf8 s, by rw [utf8_cons, e, List.cons_append]⟩

theorem utf8_cons_ascii {k : Char} (hk : k.toNat < 128) (s : Text) : utf8 (k :: s) = byte k :: utf8 s := by
  rw [utf8_cons, utf8_ascii hk]; rfl

theorem any_head_utf8 {p : UInt8 → Bool} {q : Char → Bool} (h : Agree p q) (s : Text) :
    (utf8 s).head?.any p = s.head?.any q := by
  cases s with
  | nil => rfl
  | cons c s =>
    obtain ⟨b, hb, bs, e⟩ := exists_cons_utf8 c s
    rw [e]; exact h c b hb

theorem head_utf8 {k : Char} (hk : k.toNat < 128) (s : Text) :
    (utf8 s).head? = some (byte k) ↔ s.head? = some k := by
  have h := any_head_utf8 (agree_eq hk) s
  rw [Bool.eq_iff_iff, Option.any_eq_true, Option.any_eq_true] at h
  simpa using h

/-! ## Where a token ends -/

def isSpaceByte (b : UInt8) : Bool :=
  b = byte ' ' || b = byte '\t' || b = byte '\n' || b = byte '\x0c' || b = byte '\r'

def isDigitByte (b : UInt8) : Bool := byte '0' ≤ b && b ≤ byte '9'

/-- The bytes of words. Every byte beyond ASCII is among them, which keeps
the ends of tokens between characters. -/
def startsWordByte (b : UInt8) : Bool :=
  byte 'a' ≤ b && b ≤ byte 'z' || byte 'A' ≤ b && b ≤ byte 'Z' ||
    b = byte '_' || b = byte '@' || b = byte '#' || b = byte '$' || 0x80 ≤ b

def isWordByte (b : UInt8) : Bool := startsWordByte b || isDigitByte b

theorem agree_space : Agree isSpaceByte isSpaceChar :=
  agree_of false (by decide +kernel) (by decide +kernel) fun c h => by
    have ne {k : Char} (hk : k.toNat < 128) : c ≠ k := fun e => absurd hk (e ▸ Nat.not_lt.mpr h)
    simp [isSpaceChar, ne]

theorem agree_digit : Agree isDigitByte Char.isDigit :=
  agree_of false (by decide +kernel) (by decide +kernel) fun c h => by
    have h : 128 ≤ c.val.toNat := h
    have h9 : '9'.val.toNat = 57 := rfl
    simp only [Char.isDigit, Bool.and_eq_false_imp, decide_eq_true_eq, decide_eq_false_iff_not,
      UInt32.le_iff_toNat_le]
    omega

theorem agree_startsWord : Agree startsWordByte startsWord :=
  agree_of true (by decide +kernel) (by decide +kernel) fun c h => by simp [startsWord, h]

theorem agree_notNewline : Agree (· ≠ byte '\n') (· ≠ '\n') := fun c b hb => by
  have := agree_eq (k := '\n') (by decide) c b hb
  simpa using congrArg (!·) this

theorem agree_word : Agree isWordByte isWordChar := fun c b hb => by
  rw [isWordByte, isWordChar, agree_startsWord c b hb, agree_digit c b hb]

def commentLength : List UInt8 → Nat
  | [] => 0
  | b :: bs => if b = byte '*' ∧ bs.head? = some (byte '/') then 2 else commentLength bs + 1

def quotedLength (close : UInt8) : List UInt8 → Nat
  | [] => 0
  | [_] => 1
  | b :: d :: bs =>
    if b ≠ close then quotedLength close (d :: bs) + 1
    else if d = close then quotedLength close bs + 2
    else 1

def numberLength (bs : List UInt8) : Nat :=
  let whole := (bs.takeWhile isDigitByte).length
  let rest := bs.dropWhile isDigitByte
  if rest.head? = some (byte '.') ∧ (rest.tail.head?).any isDigitByte then
    whole + 1 + (rest.tail.takeWhile isDigitByte).length
  else whole

theorem takeWhile_utf8 {p : UInt8 → Bool} {q : Char → Bool} (h : Agree p q) (s : Text) :
    (utf8 s).takeWhile p = utf8 (s.takeWhile q) := by
  induction s with
  | nil => rfl
  | cons c s ih =>
    by_cases hc : q c
    · rw [List.takeWhile_cons_of_pos hc, utf8_cons, utf8_cons, ← ih,
        List.takeWhile_append_of_pos fun b hb => (h c b hb).trans hc]
    · obtain ⟨b, bs, e⟩ := List.exists_cons_of_ne_nil (String.utf8EncodeChar_ne_nil (c := c))
      rw [List.takeWhile_cons_of_neg hc, utf8_cons, e, List.cons_append, List.takeWhile_cons_of_neg]
      · rfl
      · rw [h c b (by simp [e])]; exact hc

theorem length_takeWhile_utf8 {p : UInt8 → Bool} {q : Char → Bool} (h : Agree p q) (s : Text) :
    ((utf8 s).takeWhile p).length = byteSize (s.takeWhile q) := by
  rw [takeWhile_utf8 h, length_utf8]

theorem dropWhile_utf8 {p : UInt8 → Bool} {q : Char → Bool} (h : Agree p q) (s : Text) :
    (utf8 s).dropWhile p = utf8 (s.dropWhile q) := by
  have e := congrArg utf8 (List.takeWhile_append_dropWhile (p := q) (l := s))
  rw [utf8_append, ← takeWhile_utf8 h] at e
  exact List.append_cancel_left ((List.takeWhile_append_dropWhile (p := p)).trans e.symm)

/-- A reader that does the same on every byte but one does it on every byte of
any other character. -/
theorem pass_char {α : Type} {f : List UInt8 → α} {g : α → α} {k : Char} (hk : k.toNat < 128)
    (hf : ∀ b bs, b ≠ byte k → f (b :: bs) = g (f bs)) {c : Char} (hc : c ≠ k) (s : Text) :
    f (utf8 (c :: s)) = g^[c.utf8Size] (f (utf8 s)) := by
  have pass (w : List UInt8) (hw : ∀ b ∈ w, b ≠ byte k) : f (w ++ utf8 s) = g^[w.length] (f (utf8 s)) := by
    induction w with
    | nil => rfl
    | cons b w ih =>
      rw [List.cons_append, hf b _ (hw b List.mem_cons_self), ih fun x hx => hw x (List.mem_cons_of_mem b hx),
        List.length_cons, Function.iterate_succ_apply']
  rw [utf8_cons, pass, String.length_utf8EncodeChar]
  intro b hb e
  have := agree_eq hk c b hb
  simp [hc, e] at this

theorem length_char {size : List UInt8 → Nat} {k : Char} (hk : k.toNat < 128)
    (hsize : ∀ b bs, b ≠ byte k → size (b :: bs) = size bs + 1) {c : Char} (hc : c ≠ k) (s : Text) :
    size (utf8 (c :: s)) = c.utf8Size + size (utf8 s) := by
  rw [pass_char hk hsize hc, Nat.add_comm]
  exact Nat.succ_iterate _ _

theorem commentLength_utf8 (s : Text) : commentLength (utf8 s) = byteSize (takeComment s).1 := by
  fun_induction takeComment s with
  | case1 => rfl
  | case2 s =>
    rw [utf8_cons_ascii (by decide), utf8_cons_ascii (by decide), commentLength, if_pos ⟨rfl, rfl⟩]; rfl
  | case3 c s hs ih =>
    rw [Prod.map_fst, byteSize, ← ih]
    by_cases hc : c = '*'
    · subst hc
      have hn : ¬(utf8 s).head? = some (byte '/') := fun e => by
        obtain ⟨d, r, rfl⟩ : ∃ d r, s = d :: r := List.exists_cons_of_ne_nil fun h => by simp [h] at e
        rw [head_utf8 (by decide)] at e
        exact hs r rfl (by simpa using e)
      rw [utf8_cons_ascii (by decide), commentLength, if_neg fun h => hn h.2, Nat.add_comm]; rfl
    · exact length_char (by decide) (fun b bs hb => by rw [commentLength, if_neg fun h => hb h.1]) hc s

theorem quotedLength_utf8 {k : Char} (hk : k.toNat < 128) (s : Text) :
    quotedLength (byte k) (utf8 s) = byteSize (takeQuoted k s).1 := by
  have pass {c : Char} (hc : c ≠ k) (s : Text) :
      quotedLength (byte k) (utf8 (c :: s)) = c.utf8Size + quotedLength (byte k) (utf8 s) :=
    length_char hk (fun b bs hb => by cases bs with
      | nil => rfl
      | cons d bs => rw [quotedLength, if_pos hb]) hc s
  have hsize : k.utf8Size = 1 := by rw [← String.length_utf8EncodeChar, utf8_ascii hk]; rfl
  fun_induction takeQuoted k s with
  | case1 => rfl
  | case2 c =>
    by_cases hc : c = k
    · subst hc; rw [utf8_cons_ascii hk, utf8_nil]; simp [quotedLength, byteSize, hsize]
    · rw [pass hc]; rfl
  | case3 c d s hc ih => rw [pass hc, ih]; rfl
  | case4 c s hc ih =>
    obtain rfl : c = k := by simpa using hc
    rw [utf8_cons_ascii hk, utf8_cons_ascii hk, quotedLength, if_neg (by simp), if_pos rfl, ih]
    simp only [Prod.map_fst, byteSize, hsize]; omega
  | case5 c d s hc hd =>
    obtain rfl : c = k := by simpa using hc
    obtain ⟨b, hb, bs, e⟩ := exists_cons_utf8 d s
    have hb : b ≠ byte c := fun h => by
      have := agree_eq hk d b hb
      simp [hd, h] at this
    rw [utf8_cons_ascii hk, e, quotedLength, if_neg (by simp), if_neg hb]
    simp [byteSize, hsize]

theorem numberLength_utf8 (s : Text) : numberLength (utf8 s) = byteSize (takeNumber s).1 := by
  simp only [numberLength, dropWhile_utf8 agree_digit, length_takeWhile_utf8 agree_digit]
  unfold takeNumber
  cases s.dropWhile Char.isDigit with
  | nil => rfl
  | cons c r =>
    by_cases hc : c = '.'
    · subst hc
      rw [utf8_cons_ascii (by decide), List.tail_cons, any_head_utf8 agree_digit, length_takeWhile_utf8 agree_digit]
      cases r with
      | nil => rfl
      | cons d r =>
        by_cases hd : d.isDigit
        · simp only [hd, List.head?_cons, Option.any_some, and_self, if_true, byteSize_append, byteSize]
          exact Nat.add_assoc _ 1 _
        · simp [hd]
    · rw [if_neg fun h => hc (by simpa using (head_utf8 (k := '.') (by decide) (c :: r)).mp h.1)]
      simp [hc]

/-! ## Tokens -/

def operatorPairs : List (Char × Char) :=
  [('<', '>'), ('!', '='), ('<', '='), ('>', '='), ('!', '<'), ('!', '>'), ('|', '|'), (':', ':'),
    ('+', '='), ('-', '='), ('*', '='), ('/', '=')]

def cut (input : Text) (pos stop : Nat) (make : Text → Token) : Run (Token × Nat) := do
  return (make (← slice input pos stop), stop)

def lexQuoted (input : Text) (pos : Nat) (opening close : Char) (make : Text → Token) : Run (Token × Nat) :=
  let bs := (utf8 input).drop pos
  if bs.head? = some (byte opening) then
    cut input pos (pos + 1 + quotedLength (byte close) bs.tail) make
  else .error .assertion

def lexOperator (input : Text) (pos : Nat) : Run (Token × Nat) := do
  let rest ← range (utf8 input) pos (utf8 input).length
  let isPair := operatorPairs.any fun p => [byte p.1, byte p.2].isPrefixOf rest
  cut input pos (if isPair then pos + 2 else pos + 1) .operator

def lexMark (input : Text) (pos : Nat) (b : UInt8) : Run (Token × Nat) :=
  let bs := (utf8 input).drop pos
  if b = byte ',' then .ok (.comma, pos + 1)
  else if b = byte ';' then .ok (.semicolon, pos + 1)
  else if b = byte '.' then .ok (.dot, pos + 1)
  else if b = byte '(' then .ok (.openParen, pos + 1)
  else if b = byte ')' then .ok (.closeParen, pos + 1)
  else if startsWordByte b then cut input pos (pos + (bs.takeWhile isWordByte).length) .word
  else lexOperator input pos

def lexLiteral (input : Text) (pos : Nat) (b : UInt8) : Run (Token × Nat) :=
  let bs := (utf8 input).drop pos
  if b = byte '\'' then lexQuoted input pos '\'' '\'' .stringLiteral
  else if b = byte '"' then lexQuoted input pos '"' '"' .quotedIdentifier
  else if b = byte '[' then lexQuoted input pos '[' ']' .quotedIdentifier
  else if isDigitByte b || (b = byte '.' && bs.tail.head?.any isDigitByte) then
    cut input pos (pos + numberLength bs) .number
  else lexMark input pos b

def lexToken (input : Text) (pos : Nat) (b : UInt8) : Run (Token × Nat) :=
  let bs := (utf8 input).drop pos
  if isSpaceByte b then cut input pos (pos + (bs.takeWhile isSpaceByte).length) .whitespace
  else if b = byte '-' && bs.tail.head? = some (byte '-') then
    cut input pos (pos + (bs.takeWhile (· ≠ byte '\n')).length) .lineComment
  else if b = byte '/' && bs.tail.head? = some (byte '*') then
    cut input pos (pos + 2 + commentLength (bs.drop 2)) .blockComment
  else lexLiteral input pos b

def lexRound (input : Text) (ts : List Token) (pos : Nat) (b : UInt8) : Run (Round (List Token) (List Token)) := do
  let (t, stop) ← lexToken input pos b
  return .next (ts ++ [t]) stop

def lex (input : Text) : Run (List Token) := walk (utf8 input) (lexRound input) .ok [] 0

section
variable {a s : Text} {c : Char} {b : UInt8}

theorem drop_utf8 (a s : Text) : (utf8 (a ++ s)).drop (byteSize a) = utf8 s := by
  rw [utf8_append, ← length_utf8, List.drop_left]

theorem eq_byte {k : Char} (hk : k.toNat < 128) (hb : b ∈ String.utf8EncodeChar c) : b = byte k ↔ c = k := by
  simpa using agree_eq hk c b hb

theorem cut_append {w r : Text} (e : w ++ r = s) {stop : Nat} (hs : stop = byteSize a + byteSize w)
    (make : Text → Token) : cut (a ++ s) (byteSize a) stop make = .ok (make w, byteSize a + byteSize w) := by
  rw [cut, ← e, ← List.append_assoc, slice_append a w r rfl hs, hs]; rfl

theorem tail_utf8 {k : Char} (hk : k.toNat < 128) (s : Text) : (utf8 (k :: s)).tail = utf8 s := by
  rw [utf8_cons_ascii hk, List.tail_cons]

theorem byteSize_ascii {k : Char} (hk : k.toNat < 128) (s : Text) : byteSize (k :: s) = byteSize s + 1 := by
  rw [← length_utf8, utf8_cons_ascii hk, List.length_cons, length_utf8]

theorem lexQuoted_append {k close : Char} (hk : k.toNat < 128) (hclose : close.toNat < 128) (make : Text → Token) :
    lexQuoted (a ++ k :: s) (byteSize a) k close make =
      .ok (make (k :: (takeQuoted close s).1), byteSize a + byteSize (k :: (takeQuoted close s).1)) := by
  simp only [lexQuoted, drop_utf8, utf8_cons_ascii hk, List.head?_cons, if_true, List.tail_cons, quotedLength_utf8 hclose]
  refine cut_append (congrArg (k :: ·) (takeQuoted_append close s)) ?_ make
  rw [byteSize_ascii hk]; omega

theorem cut_run {p : UInt8 → Bool} {q : Char → Bool} (h : Agree p q) (hc : q c) (make : Text → Token) :
    cut (a ++ c :: s) (byteSize a) (byteSize a + ((utf8 (c :: s)).takeWhile p).length) make =
      .ok (make (takeRun q c s).1, byteSize a + byteSize (takeRun q c s).1) := by
  refine cut_append (takeRun_append q c s) ?_ make
  rw [length_takeWhile_utf8 h, List.takeWhile_cons_of_pos hc]; rfl

theorem pair_prefix_utf8 {k l : Char} (hk : k.toNat < 128) (hl : l.toNat < 128) :
    [byte k, byte l] <+: utf8 (c :: s) ↔ c = k ∧ s.head? = some l := by
  obtain ⟨b, hb, bs, e⟩ := exists_cons_utf8 c s
  have h1 (b : UInt8) (bs : List UInt8) : [b] <+: bs ↔ bs.head? = some b := by
    cases bs <;> simp [List.cons_prefix_cons, eq_comm]
  rw [e, List.cons_prefix_cons, eq_comm, eq_byte hk hb]
  refine and_congr_right fun hc => ?_
  subst hc
  rw [utf8_cons_ascii hk] at e
  rw [← (List.cons.inj e).2, h1, head_utf8 hl]

theorem any_operatorPairs (c : Char) (s : Text) :
    (operatorPairs.any fun p => [byte p.1, byte p.2].isPrefixOf (utf8 (c :: s))) = s.head?.any (isOperatorPair c) := by
  have hlow : ∀ p ∈ operatorPairs, p.1.toNat < 128 ∧ p.2.toNat < 128 := by decide
  rw [Bool.eq_iff_iff, List.any_eq_true, Option.any_eq_true]
  constructor
  · rintro ⟨p, hp, h⟩
    obtain ⟨rfl, hs⟩ := (pair_prefix_utf8 (hlow p hp).1 (hlow p hp).2).mp (List.isPrefixOf_iff_prefix.mp h)
    exact ⟨p.2, hs, List.contains_iff_mem.mpr hp⟩
  · rintro ⟨d, hd, h⟩
    have hp : (c, d) ∈ operatorPairs := List.contains_iff_mem.mp h
    exact ⟨(c, d), hp, List.isPrefixOf_iff_prefix.mpr
      ((pair_prefix_utf8 (hlow _ hp).1 (hlow _ hp).2).mpr ⟨rfl, hd⟩)⟩

theorem isOperatorPair_ascii {d : Char} (h : isOperatorPair c d) : c.toNat < 128 ∧ d.toNat < 128 := by
  have hlow : ∀ p ∈ operatorPairs, p.1.toNat < 128 ∧ p.2.toNat < 128 := by decide
  exact hlow (c, d) (List.contains_iff_mem.mp h)

theorem lexOperator_append (h : c.toNat < 128) : lexOperator (a ++ c :: s) (byteSize a) =
    .ok (if s.head?.any (isOperatorPair c) then (.operator (c :: s.take 1), byteSize a + byteSize (c :: s.take 1))
      else (.operator [c], byteSize a + byteSize [c])) := by
  have hr : range (utf8 (a ++ c :: s)) (byteSize a) (utf8 (a ++ c :: s)).length = .ok (utf8 (c :: s)) := by
    rw [utf8_append, ← length_utf8 a, range_tail]
  simp only [lexOperator, hr, ok_bind, any_operatorPairs]
  split
  · next hp =>
    obtain ⟨d, hd, hp⟩ := (Option.any_eq_true _ _).mp hp
    obtain ⟨r, rfl⟩ := List.head?_eq_some_iff.mp hd
    exact cut_append (w := [c, d]) rfl (by rw [byteSize_ascii h, byteSize_ascii (isOperatorPair_ascii hp).2]; rfl) .operator
  · exact cut_append (congrArg (c :: ·) rfl) (by rw [byteSize_ascii h]; rfl) .operator

theorem lexMark_append (hb : b ∈ String.utf8EncodeChar c) :
    lexMark (a ++ c :: s) (byteSize a) b =
      .ok ((scanMark c s).1, byteSize a + byteSize (scanMark c s).1.text) := by
  simp only [lexMark, drop_utf8, eq_byte (k := ',') (by decide) hb, eq_byte (k := ';') (by decide) hb,
    eq_byte (k := '.') (by decide) hb, eq_byte (k := '(') (by decide) hb, eq_byte (k := ')') (by decide) hb,
    agree_startsWord c b hb]
  unfold scanMark
  iterate 5
    split
    · rfl
  split
  · next h => exact cut_run agree_word (by rw [isWordChar, h, Bool.true_or]) .word
  · next h =>
    have hc : c.toNat < 128 := by simp [startsWord] at h; omega
    rw [lexOperator_append hc]
    split <;> rfl

theorem lexLiteral_append (hb : b ∈ String.utf8EncodeChar c) :
    lexLiteral (a ++ c :: s) (byteSize a) b =
      .ok ((scanLiteral c s).1, byteSize a + byteSize (scanLiteral c s).1.text) := by
  have hnext : (b = byte '.' && (utf8 (c :: s)).tail.head?.any isDigitByte : Bool) =
      (c = '.' && s.head?.any Char.isDigit : Bool) := by
    by_cases hc : c = '.'
    · subst hc
      simp [eq_byte (k := '.') (by decide) hb, tail_utf8, any_head_utf8 agree_digit]
    · simp [eq_byte (k := '.') (by decide) hb, hc]
  simp only [lexLiteral, drop_utf8, eq_byte (k := '\'') (by decide) hb, eq_byte (k := '"') (by decide) hb,
    eq_byte (k := '[') (by decide) hb, agree_digit c b hb, hnext, numberLength_utf8]
  unfold scanLiteral
  iterate 3
    split
    · next h => subst h; exact lexQuoted_append (by decide) (by decide) _
  split
  · exact cut_append (takeNumber_append (c :: s)) rfl .number
  · exact lexMark_append hb

theorem lexToken_append (hb : b ∈ String.utf8EncodeChar c) :
    lexToken (a ++ c :: s) (byteSize a) b = .ok ((scan c s).1, byteSize a + byteSize (scan c s).1.text) := by
  have hnext {k : Char} (hk : k.toNat < 128) {l : Char} (hl : l.toNat < 128) :
      (b = byte k && (utf8 (c :: s)).tail.head? = some (byte l) : Bool) = (c = k && s.head? = some l : Bool) := by
    by_cases hc : c = k
    · subst hc
      simp [tail_utf8 hk, head_utf8 hl, eq_byte hk hb]
    · simp [eq_byte hk hb, hc]
  simp only [lexToken, drop_utf8, agree_space c b hb, hnext (k := '-') (l := '-') (by decide) (by decide),
    hnext (k := '/') (l := '*') (by decide) (by decide)]
  unfold scan
  split
  · next h => exact cut_run agree_space h .whitespace
  split
  · next h =>
    have hc : c = '-' := by simp at h; exact h.1
    exact cut_run agree_notNewline (by simp [hc]) .lineComment
  split
  · next h =>
    simp only [Bool.and_eq_true, decide_eq_true_eq] at h
    obtain ⟨rfl, hs⟩ := h
    obtain ⟨r, rfl⟩ := List.head?_eq_some_iff.mp hs
    have hr : commentLength ((utf8 ('/' :: '*' :: r)).drop 2) = byteSize (takeComment r).1 := by
      rw [utf8_cons_ascii (by decide), utf8_cons_ascii (by decide), ← commentLength_utf8]; rfl
    refine cut_append (congrArg (fun x => '/' :: '*' :: x) (takeComment_append r)) ?_ .blockComment
    rw [hr, List.tail_cons, byteSize_ascii (by decide), byteSize_ascii (by decide)]; omega
  · exact lexLiteral_append hb

end

theorem byteSize_pos {s : Text} (h : s ≠ []) : 0 < byteSize s := by
  cases s with
  | nil => exact absurd rfl h
  | cons c s => have := c.utf8Size_pos; rw [byteSize]; omega

theorem lex_eq (s : Text) : lex s = .ok (tokenize s) := by
  have h (input a s : Text) (e : input = a ++ s) (ts : List Token) :
      walk (utf8 input) (lexRound input) .ok ts (byteSize a) = .ok (ts ++ tokenize s) := by
    fun_induction tokenize s generalizing a ts with
    | case1 => rw [walk_end (by simp [e]), List.append_nil]
    | case2 c s ih =>
      obtain ⟨b, hb, bs, hbs⟩ := exists_cons_utf8 c s
      have hpos : (utf8 input)[byteSize a]? = some b := by rw [e, ← List.head?_drop, drop_utf8, hbs]; rfl
      have hround : lexRound input ts (byteSize a) b =
          .ok (.next (ts ++ [(scan c s).1]) (byteSize a + byteSize (scan c s).1.text)) := by
        rw [lexRound, e, lexToken_append hb]; rfl
      have hlt : byteSize a < byteSize a + byteSize (scan c s).1.text := by
        have := byteSize_pos (scan_ne_nil c s); omega
      rw [walk_next hpos hround hlt, ← byteSize_append, ih _ (by rw [e, List.append_assoc, scan_text])]
      simp
  exact h s [] s rfl []

end SqlLayout.Checked

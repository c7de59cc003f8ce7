import SqlLayout.Casing
import SqlLayout.Query
import SqlLayout.Proofs.Breaks
import SqlLayout.Proofs.Upper
import SqlLayout.Proofs.Checked.Lexer

/-!
# Tokens with their places

What an engine asks of a token list by index and by offset: whether a token
has its end, how deep it stands, where it starts, and which letter case a
word takes from the tokens around it.
-/

namespace SqlLayout.Checked

/-! ## Tokens without their end -/

def closeRound (close : UInt8) (bs : List UInt8) (_ : Unit) (i : Nat) (b : UInt8) : Run (Round Unit Bool) :=
  if b = close then
    if bs[i + 1]? = some close then .ok (.next () (i + 2))
    else (minus bs.length 1).map fun last => .stop (i = last)
  else .ok (.next () (i + 1))

def isClosedQuote (opening close : Char) (s : Text) : Run Bool :=
  let bs := utf8 s
  if bs.head? = some (byte opening) then walk bs (closeRound (byte close) bs) (fun _ => .ok false) () 1
  else .ok false

def isUnterminated : Token → Run Bool
  | .stringLiteral s => (isClosedQuote '\'' '\'' s).map (!·)
  | .quotedIdentifier s =>
    if s.head? = some '[' then (isClosedQuote '[' ']' s).map (!·) else (isClosedQuote '"' '"' s).map (!·)
  | t => .ok t.isUnterminated

def closesBytes (close : UInt8) : List UInt8 → Bool
  | [] => false
  | [b] => b = close
  | b :: d :: bs =>
    if b ≠ close then closesBytes close (d :: bs)
    else if d = close then closesBytes close bs
    else false

theorem walk_closeRound {q : UInt8} {u v bs : List UInt8} (e : bs = u ++ v) :
    walk bs (closeRound q bs) (fun _ => .ok false) () u.length = .ok (closesBytes q v) := by
  fun_induction closesBytes q v generalizing u with
  | case1 => exact walk_end (by simp [e])
  | case2 b =>
    have hlast : minus bs.length 1 = .ok u.length := by rw [e, minus_of_le (by simp)]; simp
    have hnext : bs[u.length + 1]? = none := by simp [e]
    by_cases hb : b = q
    · rw [walk_stop (getElem?_split e) (by rw [closeRound, if_pos hb, hnext, if_neg nofun, hlast, map_ok])]
      simp [hb]
    · rw [walk_next (getElem?_split e) (by rw [closeRound, if_neg hb]) (Nat.lt_succ_self _), walk_end (by simp [e])]
      simp [hb]
  | case3 b d bs' hb ih =>
    rw [walk_next (getElem?_split e) (by rw [closeRound, if_neg hb]) (Nat.lt_succ_self _),
      ← ih (u := u ++ [b]) (by simp [e]), List.length_append, List.length_singleton]
  | case4 b bs' hb ih =>
    obtain rfl : b = q := by simpa using hb
    have hnext : bs[u.length + 1]? = some b := by simp [e]
    rw [walk_next (getElem?_split e) (by rw [closeRound, if_pos rfl, if_pos hnext]) (by omega),
      ← ih (u := u ++ [b, b]) (by simp [e]), List.length_append]; rfl
  | case5 b d bs' hb hd =>
    obtain rfl : b = q := by simpa using hb
    have hnext : bs[u.length + 1]? ≠ some b := by simp [e, hd]
    rw [walk_stop (getElem?_split e) (by rw [closeRound, if_pos rfl, if_neg hnext, minus_of_le (by simp [e]; omega), map_ok])]
    simp [e]

theorem closesBytes_utf8 {k : Char} (hk : k.toNat < 128) (s : Text) :
    closesBytes (byte k) (utf8 s) = Token.closesAtEnd k s := by
  have pass {c : Char} (hc : c ≠ k) (s : Text) : closesBytes (byte k) (utf8 (c :: s)) = closesBytes (byte k) (utf8 s) := by
    rw [pass_char (f := closesBytes (byte k)) (g := id) hk (fun b bs hb => ?_) hc, Function.iterate_id]
    · rfl
    · cases bs with
      | nil => simp [closesBytes, hb]
      | cons d bs => rw [closesBytes, if_pos hb]; rfl
  fun_induction Token.closesAtEnd k s with
  | case1 => rfl
  | case2 c =>
    by_cases hc : c = k
    · subst hc; rw [utf8_cons_ascii hk]; simp [closesBytes]
    · rw [pass hc]; simp [closesBytes, hc]
  | case3 c d s hc ih => rw [pass hc, ih]
  | case4 c s hc ih =>
    obtain rfl : c = k := by simpa using hc
    rw [utf8_cons_ascii hk, utf8_cons_ascii hk, closesBytes, if_neg (by simp), if_pos rfl, ih]
  | case5 c d s hc hd =>
    obtain rfl : c = k := by simpa using hc
    obtain ⟨b, hb, bs, e⟩ := exists_cons_utf8 d s
    rw [utf8_cons_ascii hk, e, closesBytes, if_neg (by simp), if_neg fun h => hd ((eq_byte hk hb).mp h)]

theorem isClosedQuote_eq {k l : Char} (hk : k.toNat < 128) (hl : l.toNat < 128) (s : Text) :
    isClosedQuote k l s = .ok (Token.isEnclosed k l s) := by
  rw [isClosedQuote]
  cases s with
  | nil => rfl
  | cons c s =>
    by_cases hc : c = k
    · subst hc
      have h := walk_closeRound (q := byte l) (u := [byte c]) (v := utf8 s) (utf8_cons_ascii hk s)
      rw [closesBytes_utf8 hl] at h
      rw [if_pos ((head_utf8 hk _).mpr rfl)]
      simpa [Token.isEnclosed] using h
    · rw [if_neg fun h => hc (by simpa using (head_utf8 hk _).mp h)]
      simp [Token.isEnclosed, hc]

theorem isUnterminated_eq (t : Token) : isUnterminated t = .ok t.isUnterminated := by
  cases t with
  | stringLiteral s => rw [isUnterminated, isClosedQuote_eq (by decide) (by decide)]; rfl
  | quotedIdentifier s =>
    rw [isUnterminated, isClosedQuote_eq (by decide) (by decide), isClosedQuote_eq (by decide) (by decide),
      Token.isUnterminated]
    split <;> rfl
  | _ => rfl

/-! ## Depth -/

/-- The depth at which a token stands, and the nesting behind it. -/
def stepDepth (n : Nesting) : Token → Run (Nat × Nesting)
  | .openParen => do return (← minus (n.depth + 1) 1, { n with depth := n.depth + 1 })
  | .closeParen =>
    if n.depth = 0 then .ok (0, { n with stray := true })
    else do
      let depth ← minus n.depth 1
      return (depth, { n with depth })
  | _ => .ok (n.depth, n)

@[simp] theorem stepDepth_eq (n : Nesting) (t : Token) : stepDepth n t = .ok (n.levelOf t, n.step t) := by
  cases t with
  | openParen => rw [stepDepth, minus_of_le (Nat.le_add_left 1 _)]; rfl
  | closeParen =>
    rw [stepDepth]
    split
    · next h => simp [Nesting.levelOf, Nesting.step, h]
    · next h => rw [minus_of_le (Nat.one_le_iff_ne_zero.mpr h)]; simp [Nesting.levelOf, Nesting.step, h]
  | _ => rfl

def keywordAt (level : Nat) (t : Token) : Option Keyword := if level = 0 then t.keyword else none

theorem keywordAt_levelOf (n : Nesting) (t : Token) : keywordAt (n.levelOf t) t = n.topKeyword t := by
  cases t with
  | closeParen => simp [keywordAt, Nesting.topKeyword, Token.keyword]
  | _ => rfl

/-! ## Places -/

def lexSpans (s : Text) : Run (List (Token × Nat × Nat)) := (lex s).map (spans 0)

theorem lexSpans_eq (s : Text) : lexSpans s = .ok (spans 0 (tokenize s)) := by rw [lexSpans, lex_eq, map_ok]

theorem spans_append (k : Nat) (ts us : List Token) :
    spans k (ts ++ us) = spans k ts ++ spans (k + byteSize (spell ts)) us := by
  induction ts generalizing k with
  | nil => rfl
  | cons t ts ih =>
    rw [List.cons_append, spans, ih, spans, List.cons_append, spell_cons, byteSize_append, Nat.add_assoc]

@[simp] theorem length_spans (k : Nat) (ts : List Token) : (spans k ts).length = ts.length := by
  induction ts generalizing k with
  | nil => rfl
  | cons t ts ih => rw [spans, List.length_cons, List.length_cons, ih]

@[simp] theorem map_fst_spans (k : Nat) (ts : List Token) : (spans k ts).map (·.1) = ts := by
  induction ts generalizing k with
  | nil => rfl
  | cons t ts ih => rw [spans, List.map_cons, ih]

theorem findIdx?_spans (p : Token → Bool) (k : Nat) (ts : List Token) :
    (spans k ts).findIdx? (fun t => p t.1) = ts.findIdx? p := by
  conv_rhs => rw [← map_fst_spans k ts, List.findIdx?_map]
  rfl

theorem any_spans (p : Token → Bool) (k : Nat) (ts : List Token) : (spans k ts).any (fun t => p t.1) = ts.any p := by
  conv_rhs => rw [← map_fst_spans k ts, List.any_map]
  rfl

theorem range_spans {ts a b c : List Token} (e : ts = a ++ b ++ c) {i j : Nat} (hi : i = a.length)
    (hj : j = a.length + b.length) : range (spans 0 ts) i j = .ok (spans (byteSize (spell a)) b) := by
  rw [e, spans_append, spans_append, Nat.zero_add]
  exact range_append _ _ _ (by simpa using hi) (by simpa using hj)

theorem getElem?_spans {ts a b : List Token} {t : Token} (e : ts = a ++ t :: b) :
    (spans 0 ts)[a.length]? = some (t, byteSize (spell a), byteSize (spell a) + byteSize t.text) := by
  have h := getElem?_split (l := spans 0 ts) (a := spans 0 a) (by rw [e, spans_append, spans])
  rwa [length_spans, Nat.zero_add] at h

theorem takeWhile_spans {a : List Token} (ha : ∀ t ∈ a, t.Formed) (b : List Token) (k : Nat) :
    (spans k (a ++ b)).takeWhile (fun t => t.2.1 < k + byteSize (spell a)) = spans k a := by
  induction a generalizing k with
  | nil =>
    cases b with
    | nil => rfl
    | cons t b => exact List.takeWhile_cons_of_neg (by simp [byteSize])
  | cons t a ih =>
    have hpos : 0 < byteSize t.text := byteSize_pos (ha t List.mem_cons_self).text_ne_nil
    have ih := ih (fun u hu => ha u (List.mem_cons_of_mem _ hu)) (k + byteSize t.text)
    have hsize : k + byteSize (spell (t :: a)) = k + byteSize t.text + byteSize (spell a) := by
      rw [spell_cons, byteSize_append, Nat.add_assoc]
    rw [List.cons_append, spans, hsize, List.takeWhile_cons_of_pos (by simp; omega), ih, spans]

theorem elem_last_spans {ts a b rest : List Token} {t : Token} (e : ts = a ++ t :: b ++ rest) :
    ∃ u k, elem (spans 0 ts) (a.length + b.length) = .ok (u, k, byteSize (spell (a ++ t :: b))) := by
  rcases b.eq_nil_or_concat with rfl | ⟨b, u, rfl⟩
  · refine ⟨t, byteSize (spell a), ?_⟩
    have h := elem_of_getElem? (getElem?_spans (show ts = a ++ t :: rest by simp [e]))
    simpa [byteSize_append] using h
  · refine ⟨u, byteSize (spell (a ++ t :: b)), ?_⟩
    have h := elem_of_getElem? (getElem?_spans (show ts = a ++ t :: b ++ u :: rest by simp [e]))
    have hlen : (a ++ t :: b).length = a.length + (b.concat u).length := by simp
    rw [hlen, ← byteSize_append] at h
    rw [h]; simp

def position {α : Type} (p : α → Bool) (l : List α) (i : Nat) : Run (Option Nat) := do
  return ((← range l i l.length).findIdx? p).map (i + ·)

theorem position_append {α : Type} {p : α → Bool} {l a b : List α} (e : l = a ++ b) :
    position p l a.length = .ok ((b.findIdx? p).map (a.length + ·)) := by
  rw [position, e, range_tail]; rfl

theorem position_spans {ts a b : List Token} (p : Token → Bool) (e : ts = a ++ b) :
    position (fun t => p t.1) (spans 0 ts) a.length = .ok ((b.findIdx? p).map (a.length + ·)) := by
  have h := position_append (p := fun t => p t.1) (l := spans 0 ts) (a := spans 0 a) (by rw [e, spans_append])
  rwa [length_spans, findIdx?_spans] at h

def findRound {α : Type} (p : α → Bool) (_ : Unit) (i : Nat) (x : α) : Run (Round Unit (Option Nat)) :=
  .ok (if p x then .stop (some i) else .next () (i + 1))

def findFrom {α : Type} (p : α → Bool) (l : List α) (i : Nat) : Run (Option Nat) :=
  walk l (findRound p) (fun _ => .ok none) () i

theorem findFrom_append {α : Type} {p : α → Bool} {l a b : List α} (e : l = a ++ b) :
    findFrom p l a.length = .ok ((b.findIdx? p).map (a.length + ·)) := by
  induction b generalizing a with
  | nil => exact walk_end (by simp [e])
  | cons x b ih =>
    rw [List.findIdx?_cons, findFrom]
    by_cases hx : p x
    · rw [walk_stop (getElem?_split e) (by rw [findRound, if_pos hx]), if_pos hx]; rfl
    · rw [walk_next (getElem?_split e) (by rw [findRound, if_neg hx]) (Nat.lt_succ_self _), if_neg hx]
      have ih := ih (a := a ++ [x]) (by simp [e])
      rw [List.length_append, List.length_singleton, findFrom] at ih
      rw [ih, Option.map_map]
      congr 2; funext i; simp only [Function.comp_apply]; omega

theorem isBlank_spell_space {ws : List Token} (hf : ∀ w ∈ ws, w.Formed) (hs : ∀ w ∈ ws, w.isSpace) :
    (spell ws).all isBlank :=
  List.all_eq_true.mpr fun c hc => isBlank_of_isSpaceChar (List.all_eq_true.mp (spell_space hf hs) c hc)

theorem keyword_text {t : Token} {k : Keyword} (h : t.keyword = some k) :
    (∀ c ∈ t.text, isBlank c = false) ∧ t.text ≠ [] := by
  cases t with
  | word w =>
    have hall : ∀ p ∈ Keyword.table, (p.1.any isBlank = false) ∧ p.1 ≠ [] := by decide +kernel
    obtain ⟨l₁, l₂, e, -⟩ := List.lookup_eq_some_iff.mp h
    obtain ⟨hb, hne⟩ := hall (upper w, k) (by rw [e]; simp)
    refine ⟨fun c hc => ?_, fun hw => hne (by rw [show w = [] from hw]; rfl)⟩
    rw [← isBlank_toUpper, ← Bool.not_eq_true]
    exact List.any_eq_false.mp hb _ (List.mem_map_of_mem hc)
  | _ => cases h

theorem keyword_of_topKeyword {n : Nesting} {t : Token} {k : Keyword} (h : n.topKeyword t = some k) : t.keyword = some k := by
  rw [Nesting.topKeyword] at h
  split at h
  · exact h
  · cases h

theorem isBlankText_keyword {t : Token} {k : Keyword} (h : t.keyword = some k) : isBlankText t.text = false := by
  obtain ⟨hb, hne⟩ := keyword_text h
  obtain ⟨c, s, e⟩ := List.exists_cons_of_ne_nil hne
  rw [isBlankText, e, List.all_cons, hb c (by simp [e]), Bool.false_and]

/-! ## Tokens that cannot be moved -/

def checkEach : List Token → Run (Except Fault Unit)
  | [] => .ok (.ok ())
  | t :: ts => do
    if ← isUnterminated t then return .error (.unterminated t.describe)
    else if t.spansLines then return .error (.multiline t.describe)
    else checkEach ts

def checkText (sql : Text) : Run (Except Fault Unit) := do checkEach (← lex sql)

theorem checkText_eq (sql : Text) : checkText sql = .ok (checkTokens (tokenize sql)) := by
  have h (ts : List Token) : checkEach ts = .ok (checkTokens ts) := by
    induction ts with
    | nil => rfl
    | cons t ts ih =>
      rw [checkEach, isUnterminated_eq, ok_bind, checkTokens, ih]
      repeat' split
      all_goals rfl
  rw [checkText, lex_eq, ok_bind, h]

/-! ## Letter case -/

def isBehindDot (ts : List Token) (i : Nat) : Run Bool :=
  if 0 < i then do return decide <| (← elem ts (← minus i 1)) = .dot else .ok false

def recaseAt (o : Options) (ts : List Token) (i : Nat) (t : Token) : Run Text :=
  match t with
  | .word w => do
    if (← isBehindDot ts i) || ts[i + 1]? = some .dot || t.isWordFrom ['@', '#'] then return w
    let before ← range ts 0 i
    let behind ← range ts (i + 1) ts.length
    return (caseOf o (neighbour before.reverse) (neighbour behind) w).apply w
  | _ => .ok t.text

def recaseText (o : Options) (sql : Text) : Run Text := do
  let ts ← lex sql
  return (← ts.zipIdx.mapM fun p => recaseAt o ts p.2 p.1).flatten

theorem isBehindDot_append (a b : List Token) :
    isBehindDot (a ++ b) a.length = .ok (a.reverse.head? = some .dot : Bool) := by
  rcases a.eq_nil_or_concat with rfl | ⟨a, x, rfl⟩
  · rfl
  · rw [isBehindDot, List.concat_eq_append, if_pos (by simp), minus_of_le (by simp), List.append_assoc]
    simp

theorem recaseAt_append (o : Options) (a : List Token) (t : Token) (b : List Token) :
    recaseAt o (a ++ t :: b) a.length t = .ok (recaseToken o a.reverse t b).text := by
  cases t with
  | word w =>
    have hbefore : range (a ++ .word w :: b) 0 a.length = .ok a := range_append [] a _ rfl (Nat.zero_add _).symm
    simp only [recaseAt, isBehindDot_append, getElem?_behind, hbefore, range_behind, ok_bind, pure_eq_ok]
    rw [recaseToken, keepsCase]
    split <;> rfl
  | _ => rfl

theorem recaseText_eq (o : Options) (sql : Text) : recaseText o sql = .ok (recase o sql) := by
  have h (a b : List Token) : (b.zipIdx a.length).mapM (fun p => recaseAt o (a ++ b) p.2 p.1) =
      .ok ((recaseFrom o a.reverse b).map Token.text) := by
    induction b generalizing a with
    | nil => rfl
    | cons t b ih =>
      have ih := ih (a ++ [t])
      rw [List.append_assoc, List.singleton_append, List.length_append, List.length_singleton,
        List.reverse_append, List.reverse_singleton, List.singleton_append] at ih
      rw [List.zipIdx_cons, List.mapM_cons, recaseAt_append, ok_bind, ih]; rfl
  have h := h [] (tokenize sql)
  rw [recaseText, lex_eq, ok_bind]
  simp only [List.nil_append, List.length_nil, List.reverse_nil] at h
  rw [h, recase, spell, List.flatMap_def]; rfl

end SqlLayout.Checked

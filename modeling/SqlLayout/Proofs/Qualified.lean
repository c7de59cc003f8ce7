import SqlLayout.Proofs.NamesLaid
import SqlLayout.Proofs.Preserved

/-!
# Qualified names

A word right behind a dot is the end of a qualified name and keeps its letter
case. A layout that looks for keywords does not see the dot, and a name that
is spelled like one is cut off from it. Any other name stays where it is
(`format_keeps_qualified`): the layout has the names of the text, and its tokens
tell which of them belong to one dot.
-/

namespace SqlLayout

/-- The words right behind a dot, each with the number of code tokens in front
of the dot. -/
def qualified (k : Nat) : List Token → List (Nat × Text)
  | .dot :: .word w :: ts => (k, w) :: qualified (k + 2) ts
  | t :: ts => qualified (if t.isCode then k + 1 else k) ts
  | [] => []

theorem mem_qualified {k j : Nat} {w : Text} {ts : List Token} : (j, w) ∈ qualified k ts ↔
    ∃ a b, ts = a ++ .dot :: .word w :: b ∧ j = k + (a.filter Token.isCode).length := by
  constructor
  · intro h
    fun_induction qualified k ts with
    | case1 k v ts ih =>
      rcases List.mem_cons.mp h with h | h
      · obtain ⟨rfl, rfl⟩ := Prod.mk.inj h
        exact ⟨[], ts, rfl, rfl⟩
      · obtain ⟨a, b, rfl, rfl⟩ := ih h
        refine ⟨.dot :: .word v :: a, b, rfl, ?_⟩
        rw [List.filter_cons_of_pos rfl, List.filter_cons_of_pos rfl, List.length_cons, List.length_cons]
        omega
    | case2 k t ts _ ih =>
      obtain ⟨a, b, rfl, rfl⟩ := ih h
      refine ⟨t :: a, b, rfl, ?_⟩
      rw [List.filter_cons]
      split
      · rw [List.length_cons]; omega
      · rfl
    | case3 => cases h
  · rintro ⟨a, b, e, rfl⟩
    fun_induction qualified k ts generalizing a with
    | case1 k v ts ih =>
      rcases a with _ | ⟨t, _ | ⟨u, a⟩⟩
      · cases e; exact List.mem_cons_self
      · cases e
      · simp only [List.cons_append, List.cons.injEq] at e
        obtain ⟨rfl, rfl, e⟩ := e
        have := ih a e
        refine List.mem_cons_of_mem _ ?_
        rw [List.filter_cons_of_pos rfl, List.filter_cons_of_pos rfl, List.length_cons, List.length_cons]
        rwa [Nat.add_right_comm] at this
    | case2 k t ts hne ih =>
      rcases a with _ | ⟨u, a⟩
      · obtain ⟨rfl, rfl⟩ := List.cons.inj e
        exact absurd rfl (hne w b rfl)
      · obtain ⟨rfl, e'⟩ := List.cons.inj e
        have := ih a e'
        rw [List.filter_cons]
        split
        · next ht =>
          rw [if_pos ht, Nat.add_right_comm] at this
          exact this
        · next ht => rwa [if_neg ht] at this
    | case3 => simp at e

/-! ## The dot that a name belongs to -/

/-- What a token is, up to letter case, unless it is space or a comma. -/
def Token.mark? : Token → Option Token
  | .whitespace _ | .comma => none
  | t => some t.plain

theorem filterMap_mark? (ts : List Token) : ts.filterMap Token.mark? = (plains ts).filter (· ≠ .comma) := by
  induction ts with
  | nil => rfl
  | cons t ts ih =>
    rw [plains_cons]
    cases t <;> simp only [List.filterMap_cons, Token.mark?, Token.isSpace, Token.plain, ih] <;> rfl

def Token.dots (t : Token) : Nat := if t = .dot then 1 else t.inner.length

theorem Token.dots_plain (t : Token) : t.plain.dots = t.dots := by
  cases t <;> simp [dots, plain, inner]

theorem length_tokenNames (ts : List Token) : (tokenNames ts).length = ((ts.filterMap Token.mark?).map Token.dots).sum := by
  induction ts with
  | nil => rfl
  | cons t ts ih =>
    have hone : (if t = .dot then [ts.head?.elim [] Token.name] else t.inner).length = t.dots := by
      rw [Token.dots]
      split <;> rfl
    rw [tokenNames, List.length_append, hone, ih]
    cases hm : t.mark? with
    | none =>
      rw [List.filterMap_cons_none hm]
      have : t.dots = 0 := by cases t <;> first | rfl | cases hm
      omega
    | some u =>
      rw [List.filterMap_cons_some hm, List.map_cons, List.sum_cons]
      have : t.plain = u := by cases t <;> first | exact Option.some.inj hm | cases hm
      rw [← this, Token.dots_plain]

theorem length_eq_of_filter {α : Type} {p : α → Bool} {xs xs' ys ys' : List α} {x x' : α}
    (h : xs ++ x :: ys = xs' ++ x' :: ys') (hx : p x) (hx' : p x') (hp : xs.filter p = xs'.filter p) :
    xs.length = xs'.length := by
  rcases List.append_eq_append_iff.mp h with ⟨c, rfl, e⟩ | ⟨c, rfl, e⟩
  · cases c with
    | nil => simp
    | cons d c =>
      obtain ⟨rfl, -⟩ := List.cons.inj e
      have := congrArg List.length hp
      simp [hx] at this
  · cases c with
    | nil => simp
    | cons d c =>
      obtain ⟨rfl, -⟩ := List.cons.inj e
      have := congrArg List.length hp
      simp [hx'] at this

theorem nameOf_eq_self {w : Text} (hf : (Token.word w).Formed) (hk : (Keyword.ofWord? w).any Keyword.cuts = false)
    (hb : w.any isBlank = false) : nameOf w = w := by
  have hw : w.takeWhile isNamePart = w :=
    List.takeWhile_eq_self_iff.mpr fun c hc => by
      simp [isNamePart, List.all_eq_true.mp (word_chars hf) c hc, List.any_eq_false.mp hb c hc]
  obtain ⟨c, r, rfl, hc, -⟩ := hf
  rw [nameOf, hw, if_pos (by simpa using hc), unlessCut, hk]
  rfl

theorem eq_of_nameOf {v w : Text} (hn : nameOf v = w) (hu : upper v = upper w) : v = w := by
  have hlen : v.length = w.length := by
    have := congrArg List.length hu
    simpa [upper] using this
  have hpre : w <+: v := by
    rw [← hn]
    unfold nameOf unlessCut
    split
    · split
      · exact List.nil_prefix
      · exact List.takeWhile_prefix _
    · exact List.nil_prefix
  exact (hpre.eq_of_length hlen.symm).symm

/-- Where tokens and names are kept, so are the words behind dots. -/
theorem qualified_of_tokenNames {ts us : List Token} (hn : tokenNames us = tokenNames ts)
    (hk : Keeps 0 (plains us) (plains ts)) {k : Nat} {w : Text} (hw : nameOf w = w) (hne : w ≠ [])
    (hq : (k, w) ∈ qualified 0 ts) : (k, w) ∈ qualified 0 us := by
  obtain ⟨a, b, rfl, rfl⟩ := mem_qualified.mp hq
  -- the dot with the same tokens in front of it
  have hmarks : us.filterMap Token.mark? =
      a.filterMap Token.mark? ++ .dot :: .word (upper w) :: b.filterMap Token.mark? := by
    rw [filterMap_mark?, hk.others, ← filterMap_mark?, List.filterMap_append]
    rfl
  obtain ⟨x, y, rfl, hx, hy⟩ := List.filterMap_eq_append_iff.mp hmarks
  obtain ⟨z, d, r, rfl, hz, hd, hr⟩ := List.filterMap_eq_cons_iff.mp hy
  obtain rfl : d = .dot := by cases d <;> first | rfl | cases hd
  have hfront : (x ++ z).filterMap Token.mark? = a.filterMap Token.mark? := by
    rw [List.filterMap_append, hx, List.filterMap_eq_nil_iff.mpr hz, List.append_nil]
  rw [← List.append_assoc] at hn hk ⊢
  -- the name behind it
  have hlen : (tokenNames (x ++ z)).length = (tokenNames a).length := by
    rw [length_tokenNames, length_tokenNames, hfront]
  rw [tokenNames_append (.inr (nameless_cons.mpr rfl)), tokenNames_append (.inr (nameless_cons.mpr rfl))] at hn
  have hname : r.head?.elim [] Token.name = w := by
    have := (List.append_inj hn hlen).2
    rw [tokenNames, tokenNames, if_pos rfl, if_pos rfl] at this
    exact (List.cons.inj this).1.trans hw
  obtain ⟨v, r, rfl⟩ : ∃ v r', r = .word v :: r' := by
    cases r with
    | nil => exact absurd hname.symm hne
    | cons u r =>
      cases u with
      | word v => exact ⟨v, r, rfl⟩
      | _ => exact absurd hname.symm hne
  have hv : upper v = upper w := Token.word.inj (List.cons.inj hr).1
  obtain rfl := eq_of_nameOf hname hv
  refine mem_qualified.mpr ⟨x ++ z, r, rfl, ?_⟩
  -- commas move past comments only, so there are as many code tokens in front
  have hcut : ∀ l m : List Token, (plains (l ++ .dot :: m)).filter Token.isCode =
      (plains l).filter Token.isCode ++ .dot :: (plains m).filter Token.isCode := fun l m => by
    rw [plains_append, List.filter_append]
    rfl
  have hcode := hk.code_eq
  rw [hcut, hcut] at hcode
  have hothers : ((plains (x ++ z)).filter Token.isCode).filter (· ≠ .comma) =
      ((plains a).filter Token.isCode).filter (· ≠ .comma) := by
    rw [List.filter_comm, ← filterMap_mark?, hfront, filterMap_mark?, List.filter_comm]
  have hlen := length_eq_of_filter hcode (by decide) (by decide) hothers
  rw [filter_isCode_plains, filter_isCode_plains, List.length_map, List.length_map] at hlen
  rw [hlen]

/-- A layout keeps every name behind its dot that is spelled like no keyword
to cut at, and puts none behind a dot. -/
theorem format_keeps_qualified {o : Options} {s out : Text} (h : (Block.mk .select s).format o = .ok out) {w : Text}
    (hw : (Keyword.ofWord? w).any Keyword.cuts = false) (hb : w.any isBlank = false) (k : Nat) :
    (k, w) ∈ qualified 0 (tokenize out) ↔ (k, w) ∈ qualified 0 (tokenize s) := by
  have hkeeps := Block.keeps_format (.inl rfl) h
  have hnames : names out = names s := by
    obtain ⟨lines, e, h⟩ := ok_of_bind (f := fun lines => do
      let output := joinLines lines
      checkPreserved s output
      return output) h
    obtain ⟨⟨⟩, -, h⟩ := ok_of_bind h
    cases h
    rw [names_joinLines, namesIn_selectLines e]
  rw [names_eq_tokenNames, names_eq_tokenNames] at hnames
  have hname : ∀ {r : Text}, (k, w) ∈ qualified 0 (tokenize r) → nameOf w = w ∧ w ≠ [] := fun {r} hq => by
    obtain ⟨a, b, e, -⟩ := mem_qualified.mp hq
    have hf : (Token.word w).Formed := formed_of_mem (s := r) (by simp [e])
    exact ⟨nameOf_eq_self hf hw hb, hf.text_ne_nil⟩
  constructor
  · exact fun hq => qualified_of_tokenNames hnames.symm hkeeps.symm (hname hq).1 (hname hq).2 hq
  · exact fun hq => qualified_of_tokenNames hnames hkeeps (hname hq).1 (hname hq).2 hq

set_option maxRecDepth 100000 in
theorem format_keeps_qualified_window :
    (Block.mk .select "select sum(t.x) over (order by t.id) from t".toList).format {} =
        .ok "SELECT SUM(t.x)\n           OVER (\n               ORDER BY t.id\n           )\n      FROM t".toList ∧
      (12, "id".toList) ∈ qualified 0
        (tokenize "SELECT SUM(t.x)\n           OVER (\n               ORDER BY t.id\n           )\n      FROM t".toList) :=
  have h : (Block.mk .select "select sum(t.x) over (order by t.id) from t".toList).format {} =
      .ok "SELECT SUM(t.x)\n           OVER (\n               ORDER BY t.id\n           )\n      FROM t".toList := by
    decide +kernel
  ⟨h, (format_keeps_qualified h (by decide +kernel) (by decide +kernel) 12).mpr (by decide +kernel)⟩

set_option maxRecDepth 100000 in
/-- A column of the name ROWS is taken for the frame of the window. -/
theorem format_parts_name :
    (Block.mk .select "select sum(t.x) over (order by t.rows) from t".toList).format {} =
        .ok "SELECT SUM(t.x)\n           OVER (\n               ORDER BY t.\n               rows\n           )\n      FROM t".toList ∧
      (12, "rows".toList) ∈ qualified 0 (tokenize "select sum(t.x) over (order by t.rows) from t".toList) ∧
      (12, "rows".toList) ∉ qualified 0 (tokenize
        "SELECT SUM(t.x)\n           OVER (\n               ORDER BY t.\n               rows\n           )\n      FROM t".toList) :=
  ⟨by decide +kernel, by decide +kernel, by decide +kernel⟩

end SqlLayout

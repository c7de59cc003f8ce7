import SqlLayout.Proofs.Names
import SqlLayout.Proofs.Reflow
import SqlLayout.Proofs.Single

/-!
# Code that starts at its column

Code is put on one line and may be broken or have its alias moved, and none of
that puts a blank in front of it (`Clause.fits_split`).
-/

namespace SqlLayout

def Flush (s : Text) : Prop := s.head?.all fun c => !isBlank c

theorem flush_cons {c : Char} {s : Text} : Flush (c :: s) ↔ isBlank c = false := by simp [Flush]

theorem Flush.append {s : Text} (h : Flush s) (hne : s ≠ []) (t : Text) : Flush (s ++ t) := by
  rw [Flush, List.head?_append_of_ne_nil _ hne]
  exact h

theorem Flush.trimEnd {s : Text} (h : Flush s) : Flush (trimEnd s) ∧ (SqlLayout.trimEnd s = [] → s = []) := by
  cases s with
  | nil => exact ⟨h, fun _ => rfl⟩
  | cons c s =>
    rw [trimEnd_cons (flush_cons.mp h)]
    exact ⟨h, fun h => absurd h (List.cons_ne_nil _ _)⟩

theorem flush_trimStart (s : Text) : Flush (trimStart s) := by
  have h := head_dropWhile isBlank s
  rw [trimStart]
  cases e : s.dropWhile isBlank with
  | nil => rfl
  | cons c r => simpa [e, flush_cons] using h

theorem flush_trim (s : Text) : Flush (trim s) := (flush_trimStart s).trimEnd.1

theorem Flush.joinLines {l : Text} (h : Flush l) (hne : l ≠ []) (ls : List Text) : Flush (joinLines (l :: ls)) := by
  rw [joinLines_eq_flatMap]
  exact h.append hne _

/-! ## Code -/

theorem flush_normalize (n : Nat) (code : Text) : Flush (normalize n code) := by
  unfold normalize
  split
  · unfold hang
    cases hls : trimmedLines code with
    | nil => rfl
    | cons l ls =>
      obtain ⟨hm, hne⟩ := List.mem_filter.mp (hls ▸ List.mem_cons_self : l ∈ trimmedLines code)
      obtain ⟨m, -, rfl⟩ := List.mem_map.mp hm
      exact (flush_trim m).joinLines (by simpa using hne) _
  · exact flush_trim _

theorem Flush.spell_first {code : Text} (h : Flush code) {t : Token} {ts : List Token} (e : tokenize code = t :: ts)
    (us : List Token) : Flush (spell (t :: us)) ∧ spell (t :: us) ≠ [] := by
  have hne : t.text ≠ [] := (formed_of_mem (s := code) (by rw [e]; simp)).text_ne_nil
  have hcode := spell_tokenize code
  rw [e, spell_cons] at hcode
  rw [← hcode, Flush, List.head?_append_of_ne_nil _ hne] at h
  exact ⟨Flush.append h hne _, by simp [hne]⟩

theorem flush_reflow {indent : Nat} {code out : Text} (h : Flush code) (ho : reflow indent code = some out) : Flush out := by
  rw [reflow] at ho
  split at ho
  · cases ho
  rcases Option.or_eq_some_iff.mp ho with ho | ⟨-, ho⟩
  · simp only [reflowCase] at ho
    split at ho
    · next hcond =>
      cases ho
      cases e : tokenize code with
      | nil => simp [e, caseShape] at hcond
      | cons t ts =>
        obtain ⟨us, efirst⟩ := caseShape_first {} t ts
        obtain ⟨hf, hne⟩ := h.spell_first e us
        rw [efirst]
        exact hf.trimEnd.1.joinLines (mt hf.trimEnd.2 hne) _
    · cases ho
  · simp only [reflowWindow] at ho
    split at ho
    · cases ho
    split at ho
    · cases ho
    · split at ho
      · cases ho
      · next hcond =>
        cases ho
        refine (flush_trim _).joinLines (fun hnil => hcond ?_) _
        rw [Bool.or_eq_true]
        exact Or.inl (trim_eq_nil.mp hnil)

theorem flush_splitAlias {code front back : Text} (h : Flush code) (hs : splitAlias code = some (front, back)) :
    Flush front ∧ front ≠ [] := by
  rw [splitAlias] at hs
  split at hs
  · cases hs
  split at hs
  · cases hs
  · next t ts e =>
    obtain ⟨p, -, hp⟩ := Option.map_eq_some_iff.mp hs
    obtain ⟨rfl, -⟩ := Prod.mk.inj hp
    obtain ⟨hf, hne⟩ := h.spell_first e p.1
    exact ⟨hf.trimEnd.1, mt hf.trimEnd.2 hne⟩

theorem Item.flush_reflow {i : Item} (h : Flush i.code) (indent : Nat) : Flush (i.reflow indent).code := by
  rw [Item.reflow]
  cases e : SqlLayout.reflow indent i.code with
  | none => exact h
  | some out => exact SqlLayout.flush_reflow h e

theorem Item.flush_alignAlias {i : Item} (h : Flush i.code) (width : Nat) : Flush (i.alignAlias width).code := by
  rw [Item.alignAlias]
  split
  · next front back e =>
    obtain ⟨hf, hne⟩ := flush_splitAlias h e
    rw [List.append_assoc]
    exact hf.append hne _
  · exact h

/-! ## Keywords -/

def Ended (s : Text) : Prop := trimEnd s = s ∧ s ≠ []

theorem Ended.append {t : Text} (h : Ended t) (s : Text) : Ended (s ++ t) :=
  ⟨by rw [trimEnd_append (by rw [h.1]; exact h.2), h.1], List.append_ne_nil_of_right_ne_nil s h.2⟩

theorem Ended.of_upper {s : Text} (h : Ended (upper s)) : Ended s := by
  have hlen : (trimEnd s).length = s.length := by
    rw [← length_upper (trimEnd s), ← trimEnd_upper, h.1, length_upper]
  exact ⟨(trimEnd_isPrefix s).eq_of_length hlen, fun hs => h.2 (by rw [hs]; rfl)⟩

theorem Ended.intercalate {ws : List Text} (hne : ws ≠ []) (h : ∀ w ∈ ws, Ended w) : Ended ([' '].intercalate ws) := by
  induction ws with
  | nil => exact absurd rfl hne
  | cons w ws ih =>
    cases ws with
    | nil => simpa using h
    | cons v ws =>
      rw [List.intercalate_cons_cons]
      exact (ih (List.cons_ne_nil _ _) fun w hw => h w (List.mem_cons_of_mem _ hw)).append _

theorem Token.upper_text_of_keyword {t : Token} {k : Keyword} (h : t.keyword = some k) :
    SqlLayout.upper t.text = k.name.toList := by
  have htable : ∀ p ∈ Keyword.table, p.1 = p.2.name.toList := by decide +kernel
  cases t with
  | word w => exact htable _ (Keyword.mem_table h)
  | _ => cases h

theorem Token.ended_of_keyword {t : Token} {k : Keyword} (h : t.keyword = some k) : Ended t.text := by
  have htable : ∀ p ∈ Keyword.table, trimEnd p.1 = p.1 ∧ p.1 ≠ [] := by decide +kernel
  cases t with
  | word w => exact Ended.of_upper (htable _ (Keyword.mem_table h))
  | _ => cases h

theorem Item.splitOperator_eq_some {i : Item} {operator code : Text} (h : i.splitOperator = some (operator, code)) :
    (upper operator = "AND".toList ∨ upper operator = "OR".toList) ∧ Flush code := by
  unfold Item.splitOperator at h
  split at h
  · next t ts e =>
    split at h
    · next hk =>
      cases h
      refine ⟨?_, flush_trimStart _⟩
      rcases Bool.or_eq_true_iff.mp hk with hk | hk
      · exact .inl (Token.upper_text_of_keyword (of_decide_eq_true hk))
      · exact .inr (Token.upper_text_of_keyword (of_decide_eq_true hk))
    · cases h
  · cases h

theorem ended_joinOperator {m : Nat} {ts rest : List Token} {ws : List Text} (h : joinOperator m ts = some (ws, rest)) :
    ws ≠ [] ∧ ∀ w ∈ ws, Ended w := by
  fun_induction joinOperator m ts generalizing ws with
  | case2 m t ts hk | case3 m t ts hk =>
    cases h
    exact ⟨List.cons_ne_nil _ _, fun w hw => List.mem_singleton.mp hw ▸ Token.ended_of_keyword hk⟩
  | case5 m t k _ _ hk _ w us ih =>
    obtain ⟨⟨vs, b⟩, e, hab⟩ := Option.map_eq_some_iff.mp h
    cases hab
    exact ⟨List.cons_ne_nil _ _, List.forall_mem_cons.mpr ⟨Token.ended_of_keyword hk, (ih e).2⟩⟩
  | _ => cases h

theorem ended_joinSections (n : Nesting) (ts : List Token) : ∀ p ∈ (joinSections n ts).2, Ended p.1 := by
  fun_induction joinSections n ts with
  | case1 => simp
  | case2 n t ts ws rest h hlt front later e ih =>
    obtain ⟨hne, hw⟩ := ended_joinOperator (eq_some_of_ite h)
    rw [e] at ih
    exact List.forall_mem_cons.mpr ⟨Ended.intercalate hne hw, ih⟩
  | case3 n t ts h front later e ih =>
    rw [e] at ih
    exact ih

/-! ## Clauses -/

def Clause.Spelled (c : Clause) : Prop := upper c.keyword = c.kind.name.toList

instance (c : Clause) : Decidable c.Spelled := inferInstanceAs (Decidable (upper c.keyword = c.kind.name.toList))

theorem opens_spelled {k : Keyword} {ts tokens : List Token} {kind : ClauseKind} {more : Text}
    (h : opens k ts = some (kind, more, tokens)) {t : Token} (ht : t.keyword = some k) :
    upper (t.text ++ more) = kind.name.toList := by
  have alone : more = [] → kind.name = k.name → upper (t.text ++ more) = kind.name.toList := by
    rintro rfl e
    rw [List.append_nil, Token.upper_text_of_keyword ht, e]
  have withBy : ∀ (l : ClauseKind) (u : Token) (us : List Token),
      l.name.toList = k.name.toList ++ ' ' :: Keyword.BY.name.toList →
      (if u.isKeyword .BY then some (l, ' ' :: u.text, us) else none) = some (kind, more, tokens) →
      upper (t.text ++ more) = kind.name.toList := by
    intro l u us e h
    obtain ⟨hu, hl⟩ := Option.ite_none_right_eq_some.mp h
    cases hl
    rw [e, ← Token.upper_text_of_keyword ht, ← Token.upper_text_of_keyword (of_decide_eq_true hu), upper_append]
    rfl
  unfold opens at h
  cases eu : ts.dropWhile Token.isSpace with
  | nil =>
    simp only [eu] at h
    split at h <;> cases h <;> exact alone rfl rfl
  | cons u us =>
    simp only [eu] at h
    split at h
    case h_5 => exact withBy .GROUP_BY u us rfl h
    case h_6 => exact withBy .ORDER_BY u us rfl h
    case h_7 => cases h
    all_goals
      cases h
      exact alone rfl rfl

theorem sections_spelled (n : Nesting) (ts : List Token) : ∀ s ∈ (sections n ts).2, s.clause.Spelled := by
  induction ts generalizing n with
  | nil => simp [sections]
  | cons t ts ih =>
    rcases sections_cons n t ts with ⟨-, e⟩ | ⟨-, -, e⟩ | ⟨k, kind, more, tokens, -, -, hk, -, ho, e⟩
    · rw [e]; exact ih _
    · rw [e]; exact ih _
    · rw [e]
      exact List.forall_mem_cons.mpr ⟨opens_spelled ho hk, ih _⟩

theorem ofText_spelled {sql : Text} {s : Select} (h : Select.ofText sql = .ok s) : ∀ c ∈ s.clauses, c.Spelled := by
  rw [(ofText_eq_sections h).2]
  exact List.forall_mem_map.mpr (sections_spelled {} _)

/-! ## Bodies -/

structure Join.Fits (j : Join) : Prop where
  operator : Ended j.operator
  on : ∀ on ∈ j.on, upper on = "ON".toList
  conditions : ∀ i ∈ j.conditions, Flush i.code

/-- The body belongs to a clause of the kind, and no code in it that is to be
lined up starts with a blank. -/
def Body.Fits : ClauseKind → Body → Prop
  | .SELECT, .selection _ items => ∀ i ∈ items, Flush i.code
  | .GROUP_BY, .list items | .ORDER_BY, .list items => ∀ i ∈ items, Flush i.code
  | .WHERE, .conditions items | .HAVING, .conditions items => ∀ i ∈ items, Flush i.code
  | .FROM, .sources s => ∀ j ∈ s.joins, j.Fits
  | _, _ => False

theorem Item.flush_prepare (n : Nat) (i : Item) : Flush (i.prepare n).code := flush_normalize n i.code

theorem flush_prepareAll {n : Nat} {items prepared : List Item} (h : prepareAll n items = .ok prepared) :
    ∀ i ∈ prepared, Flush i.code := by
  rw [prepareAll_eq h]
  exact List.forall_mem_map.mpr fun i _ => i.flush_prepare n

theorem selectionBody_fits {o : Options} {ts : List Token} {b : Body} (h : selectionBody o ts = .ok b) : b.Fits .SELECT := by
  unfold selectionBody at h
  obtain ⟨prepared, hp, rfl⟩ := map_eq_ok h
  have hreflow : ∀ i ∈ prepared.map (Item.reflow o.indentSize), Flush i.code :=
    List.forall_mem_map.mpr fun i hi => Item.flush_reflow (flush_prepareAll hp i hi) _
  have halign : ∀ i ∈ alignAliases (prepared.map (Item.reflow o.indentSize)), Flush i.code :=
    List.forall_mem_map.mpr fun i hi => Item.flush_alignAlias (hreflow i hi) _
  simp only [Body.Fits]
  split
  · exact halign
  · exact hreflow

theorem Join.fits_ofTokens {operator : Text} (ho : Ended operator) (ts : List Token) (n : Nat) :
    ((Join.ofTokens operator ts).mapItems (Item.prepare n)).Fits := by
  unfold Join.ofTokens
  split
  · next table on rest e =>
    obtain ⟨t, hk, rfl, -⟩ := splitOn?_parts e
    exact {
      operator := ho
      on := fun on h => by cases h; exact Token.upper_text_of_keyword hk
      conditions := List.forall_mem_map.mpr fun i _ => i.flush_prepare n }
  · exact { operator := ho, on := fun on h => (by cases h), conditions := by simp [Join.mapItems] }

theorem Clause.fits_split {o : Options} {c : Clause} {b : Body} (h : c.split o = .ok b) : b.Fits c.kind := by
  unfold Clause.split at h
  cases hk : c.kind <;> simp only [hk] at h
  case SELECT => exact selectionBody_fits h
  case FROM =>
    cases h
    refine List.forall_mem_map.mpr fun j hj => ?_
    obtain ⟨p, hp, rfl⟩ := List.mem_map.mp hj
    exact Join.fits_ofTokens (ended_joinSections _ _ p hp) _ _
  all_goals
    obtain ⟨prepared, hp, rfl⟩ := map_eq_ok h
    exact flush_prepareAll hp

end SqlLayout

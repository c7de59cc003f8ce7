import SqlLayout.Proofs.Names
import SqlLayout.Proofs.Select
import SqlLayout.Proofs.Splits

/-!
# Names of what is split

Tokens are cut in front of a keyword, behind a token that is no dot, and
beside space, comments and commas. So the names of a token list are those of
the items it is split into, in the same order, and code keeps its names when
it is put on one line or broken into several.
-/

namespace SqlLayout

/-! ## Items -/

def Item.names (i : Item) : List Text :=
  namesIn i.leading ++ (SqlLayout.names i.code ++ (namesIn i.trailing.toList ++ namesIn i.following))

theorem getLast_ne_dot_of_trivia {ts : List Token} (h : ∀ t ∈ ts, t.isTrivia) : ts.getLast? ≠ some .dot := fun e => by
  cases h _ (List.mem_of_getLast? e)

theorem tokenNames_space {ts : List Token} (h : ∀ t ∈ ts, t.isSpace) : tokenNames ts = [] := by
  have ht : ∀ t ∈ ts, t.isTrivia := fun t hm => by simp [Token.isTrivia, h t hm]
  rw [tokenNames_trivia ht, solids_eq_nil.mpr (by simpa using h), List.flatMap_nil]

theorem namesIn_commentLines {ts : List Token} (hl : Legible ts) (ht : ∀ t ∈ ts, t.isTrivia) :
    namesIn (commentLines ts) = tokenNames ts := by
  have hlines : ∀ l ∈ ts.splitOnP Token.isNewline, names (trim (spell l)) = (solids l).flatMap Token.inner := fun l hm => by
    obtain ⟨hi, -⟩ := mem_splitOnP hm
    rw [names_trim, (hl.of_infix hi).names_spell, tokenNames_trivia fun t h => ht t (hi.subset h)]
  rw [commentLines, namesIn_filter, namesIn, List.flatMap_map, List.flatMap_congr hlines, tokenNames_trivia ht,
    ← solids_splitOnP, List.flatMap_assoc]

theorem namesIn_nonempty? (s : Text) : namesIn (nonempty? s).toList = names s := by
  unfold nonempty?
  split
  · next h => rw [h]; rfl
  · simp

theorem Item.Cut.names_item {c : Item.Cut} (hc : c.Sound) (hr : Readable c.all) : c.item.names = tokenNames c.all := by
  obtain ⟨hl, hb⟩ := Item.Cut.legible hc hr
  have hlead : ∀ t ∈ c.lead, t.isTrivia := fun t h => hc.front t (by simp [h])
  have hgap : ∀ t ∈ c.gap, t.isTrivia := fun t h => hc.front t (by simp [h])
  have htrail : ∀ t ∈ c.trail, t.isTrivia := fun t h => hc.back t (by simp [h])
  have hfollow : ∀ t ∈ c.follow, t.isTrivia := fun t h => hc.back t (by simp [h])
  have hcode : Legible (c.near ++ c.core) := hl.of_append_right.of_append_right
  have hnames : c.item.names =
      tokenNames c.lead ++ (tokenNames (c.near ++ c.core) ++ (tokenNames c.trail ++ tokenNames c.follow)) := by
    rw [Item.names, item, namesIn_commentLines hl.of_append_left hlead, hcode.names_spell, namesIn_nonempty?, names_trim,
      hb.of_append_left.names_spell, namesIn_commentLines hb.of_append_right hfollow]
  rw [hnames, all, tokenNames_append (.inl (getLast_ne_dot_of_trivia hlead)),
    tokenNames_append (.inl (getLast_ne_dot_of_trivia hgap)), tokenNames_space hc.gap, List.nil_append, ← List.append_assoc c.near,
    tokenNames_append (.inr (nameless_append (nameless_trivia htrail) (nameless_trivia hfollow))),
    tokenNames_append (.inr (nameless_trivia hfollow))]

theorem Item.names_ofTokens? {g : List Token} (hr : Readable g) :
    (Item.ofTokens? g).toList.flatMap Item.names = tokenNames g := by
  by_cases ht : ∀ t ∈ g, t.isTrivia
  · have e := namesIn_commentLines (hr.legible_trivia ht) ht
    rw [ofTokens?_trivia ht, ← e]
    split
    · next h => simp [h]
    · simp [Item.names]
  · obtain ⟨c, hc, rfl, e⟩ := exists_cut ht
    rw [e, Option.toList_some, List.flatMap_singleton, Item.Cut.names_item hc hr]

theorem Item.names_ofTokens {g : List Token} (hr : Readable g) : (Item.ofTokens g).names = tokenNames g := by
  rw [← Item.names_ofTokens? hr, ofTokens]
  cases Item.ofTokens? g <;> simp [Item.names]

theorem names_items {gs : List (List Token)} (h : ∀ g ∈ gs, Readable g) :
    (gs.filterMap Item.ofTokens?).flatMap Item.names = gs.flatMap tokenNames := by
  induction gs with
  | nil => rfl
  | cons g gs ih =>
    have hg := Item.names_ofTokens? (h g (by simp))
    rw [List.flatMap_cons, ← ih fun g hm => h g (by simp [hm]), ← hg]
    cases e : Item.ofTokens? g <;> simp [e]

/-! ## Code on one line -/

theorem stopsName_blanked {ts : List Token} (hf : ∀ t ∈ ts, t.Formed) (h : StopsName (spell ts)) :
    StopsName (spell (blanked ts)) := by
  cases ts with
  | nil => exact h
  | cons t ts =>
    cases hs : t.isSpace with
    | true =>
      rw [blanked, List.map_cons, hs]
      exact stopsName_cons (by decide) _
    | false =>
      obtain ⟨c, r, e⟩ := List.exists_cons_of_ne_nil (hf t (by simp)).text_ne_nil
      rw [spell_cons, e] at h
      rw [blanked, List.map_cons, hs, spell_cons]
      simpa [StopsName, e] using h

theorem apart_blanked {ts : List Token} (hl : Legible ts) (hc : ∀ t ∈ ts, t.isLineComment = false) : Apart (blanked ts) := by
  induction ts with
  | nil => trivial
  | cons t ts ih =>
    have ih := ih hl.2.2 fun t ht => hc t (by simp [ht])
    rw [blanked, List.map_cons]
    cases hs : t.isSpace with
    | true => exact ⟨⟨List.cons_ne_nil _ _, by decide⟩, Token.leaves_of_isSpace rfl _, ih⟩
    | false =>
      have hleaves := (hl.2.1.resolve_left (by simp [hs])).leaves
      refine ⟨hl.1, ⟨fun hu => ?_, fun h => ?_⟩, ih⟩
      · have hnil : ts = [] := by
          by_contra hne
          exact spell_ne_nil hl.2.2 hne (hleaves.closed hu)
        rw [hnil]
        rfl
      · exact stopsName_blanked (fun t ht => hl.2.2.formed ht) (hleaves.stops h)

theorem tokenNames_blanked (ts : List Token) : tokenNames (blanked ts) = tokenNames ts := by
  induction ts with
  | nil => rfl
  | cons t ts ih =>
    have hhead : (blanked ts).head?.elim [] Token.name = ts.head?.elim [] Token.name := by
      cases ts with
      | nil => rfl
      | cons u ts =>
        change Token.name (if u.isSpace then _ else _) = u.name
        split
        · next hs => rw [Token.name_of_isTrivia (t := u) (by simp [Token.isTrivia, hs])]; rfl
        · rfl
    rw [tokenNames, ← hhead, ← ih]
    change tokenNames ((if t.isSpace then _ else _) :: blanked ts) = _
    split
    · next hs =>
      have ht : t ≠ .dot := by rintro rfl; cases hs
      rw [if_neg ht, Token.inner_of_isSpace hs]
      rfl
    · rfl

theorem names_collapse {ts : List Token} (hl : Legible ts) (hc : ∀ t ∈ ts, t.isLineComment = false) :
    names (collapse ts) = tokenNames ts := by
  rw [collapse_eq, names_trim, (apart_blanked hl hc).names_spell, tokenNames_blanked]

@[simp] theorem names_normalize (n : Nat) (s : Text) : names (normalize n s) = names s := by
  unfold normalize
  split
  · rw [names_joinLines, ← namesIn_trimmedLines s]
    unfold hang
    cases trimmedLines s with
    | nil => rfl
    | cons l ls => rw [namesIn_cons, namesIn_cons, namesIn_map (names_pad_append n)]
  · next h => rw [names_collapse (legible_tokenize s) (by simpa using h), names_eq_tokenNames]

@[simp] theorem Item.names_prepare (n : Nat) (i : Item) : (i.prepare n).names = i.names := by
  simp [Item.names, prepare]

theorem names_prepareAll {n : Nat} {items prepared : List Item} (h : prepareAll n items = .ok prepared) :
    prepared.flatMap Item.names = items.flatMap Item.names := by
  rw [prepareAll_eq h, List.flatMap_map]
  simp

/-! ## Code over several lines -/

theorem ne_dot_of_keyword {t : Token} {k : Keyword} (h : t.keyword = some k) : t ≠ .dot := by
  rintro rfl
  cases h

theorem inner_of_keyword {t : Token} {k : Keyword} (h : t.keyword = some k) : t.inner = [] := by
  cases t with
  | word w => rfl
  | _ => cases h

theorem tokenNames_keyword {t : Token} {k : Keyword} (h : t.keyword = some k) (ts : List Token) :
    tokenNames (t :: ts) = tokenNames ts := by
  rw [tokenNames_cons (ne_dot_of_keyword h), inner_of_keyword h, List.nil_append]

theorem nameless_keyword {t : Token} {k : Keyword} (h : t.keyword = some k) (hk : k.cuts) (ts : List Token) :
    Nameless (t :: ts) := nameless_cons.mpr (Token.name_of_keyword h hk)

theorem namesIn_spell_cut {g : List Token} {gs : List (List Token)} (hl : Legible (g ++ gs.flatten))
    (h : ∀ g ∈ gs, Nameless g) : names (spell g) ++ namesIn (gs.map spell) = names (spell (g ++ gs.flatten)) := by
  obtain ⟨hn, e⟩ := tokenNames_flatten h
  have hgs : namesIn (gs.map spell) = gs.flatMap tokenNames := by
    rw [namesIn, List.flatMap_map]
    refine List.flatMap_congr fun u hu => ?_
    obtain ⟨x, y, rfl⟩ := List.append_of_mem hu
    have hi : u <:+: g ++ (x ++ u :: y).flatten := ⟨g ++ x.flatten, y.flatten, by simp⟩
    exact (hl.of_infix hi).names_spell
  rw [hl.names_spell, tokenNames_append (.inr hn), e, hl.of_append_left.names_spell, hgs]

theorem caseShape_nameless (n : Nesting) (d : Nat) (ts : List Token) :
    ∀ l ∈ (caseShape n d ts).later, Nameless l.2 := by
  induction ts generalizing n d with
  | nil => simp [caseShape]
  | cons t ts ih =>
    rw [caseShape]
    cases h : (caseStep d (n.topKeyword t)).2 with
    | none => simpa [h] using ih _ _
    | some l =>
      simp only [h]
      refine List.forall_mem_cons.mpr ⟨?_, ih _ _⟩
      cases hk : n.topKeyword t with
      | none => simp [hk, caseStep] at h
      | some k =>
        refine nameless_keyword (Nesting.topKeyword_eq_some.mp hk).2 ?_ _
        rw [hk] at h
        cases k <;> first | rfl | cases h

theorem names_reflowCase {indent : Nat} {code m : Text} (h : reflowCase indent code = some m) : names m = names code := by
  simp only [reflowCase] at h
  split at h
  · cases h
    have e := caseShape_tokens {} 0 (tokenize code)
    have hcut := caseShape_nameless {} 0 (tokenize code)
    generalize caseShape {} 0 (tokenize code) = shape at e hcut
    have hlater : namesIn (shape.later.map fun l => trimEnd (pad (l.1 * indent) ++ spell l.2)) =
        namesIn ((shape.later.map Prod.snd).map spell) := by
      simp [namesIn, List.flatMap_map]
    rw [names_joinLines, namesIn_cons, names_trimEnd, hlater, namesIn_spell_cut (e ▸ legible_tokenize code) ?_, e, spell_tokenize]
    exact List.forall_mem_map.mpr hcut
  · cases h

theorem windowParts_nameless (n : Nesting) (started : Bool) (ts : List Token) :
    ∃ g gs, windowParts n started ts = g :: gs ∧ ∀ h ∈ gs, Nameless h := by
  induction ts generalizing n started with
  | nil => exact ⟨[], [], rfl, by simp⟩
  | cons t ts ih =>
    obtain ⟨g, gs, e, hgs⟩ := ih (n.step t) (started || !isBlankText t.text)
    rw [windowParts]
    simp only [e, List.modifyHead_cons]
    split
    · next h =>
      refine ⟨[], (t :: g) :: gs, rfl, List.forall_mem_cons.mpr ⟨?_, hgs⟩⟩
      obtain ⟨hpart, -⟩ := Bool.and_eq_true_iff.mp h
      cases hk : n.topKeyword t with
      | none => simp [hk, startsPart] at hpart
      | some k =>
        refine nameless_keyword (Nesting.topKeyword_eq_some.mp hk).2 ?_ _
        rw [hk] at hpart
        cases k <;> first | rfl | cases hpart
    · exact ⟨t :: g, gs, rfl, hgs⟩

theorem names_windowParts {ts : List Token} (hl : Legible ts) :
    namesIn ((windowParts {} false ts).map fun p => trim (spell p)) = tokenNames ts := by
  obtain ⟨g, gs, e, hgs⟩ := windowParts_nameless {} false ts
  have hflat := (windowParts_flatten {} false ts).2
  rw [e] at hflat ⊢
  have hl : Legible (g ++ gs.flatten) := by rwa [← List.flatten_cons, hflat]
  have hcut := namesIn_spell_cut hl hgs
  rw [hl.names_spell, ← List.flatten_cons, hflat] at hcut
  rw [← hcut]
  simp [namesIn, List.flatMap_map]

theorem names_window {w : Window} {indent : Nat} {sp : List Token} (hk : w.keyword.isKeyword .OVER)
    (hsp : ∀ t ∈ sp, t.isSpace)
    (hl : Legible (w.front ++ w.keyword :: (sp ++ .openParen :: (w.inner ++ .closeParen :: w.back)))) :
    namesIn (w.lines indent) =
      tokenNames (w.front ++ w.keyword :: (sp ++ .openParen :: (w.inner ++ .closeParen :: w.back))) := by
  have hk : w.keyword.keyword = some .OVER := by simpa [Token.isKeyword] using hk
  have hspace : sp.getLast? ≠ some .dot := fun e => by cases hsp _ (List.mem_of_getLast? e)
  have hinner := hl.of_append_right.2.2.of_append_right.2.2
  have hback : names (spell w.back) = tokenNames w.back := hinner.of_append_right.2.2.names_spell
  have htokens : tokenNames (w.front ++ w.keyword :: (sp ++ .openParen :: (w.inner ++ .closeParen :: w.back))) =
      tokenNames w.front ++ (tokenNames w.inner ++ tokenNames w.back) := by
    rw [tokenNames_append (.inr (nameless_keyword hk rfl _)), tokenNames_keyword hk, tokenNames_append (.inl hspace),
      tokenNames_space hsp, tokenNames_cons (by decide), tokenNames_append (.inr (nameless_cons.mpr rfl)), tokenNames_cons (by decide)]
    rfl
  have hover : names (pad indent ++ w.keyword.text ++ " (".toList) = [] := by
    rw [List.append_assoc, names_pad_append, names_append_left (dot_notMem_keyword hk)]
    rfl
  have hclose : names (pad indent ++ if trim (spell w.back) = [] then [')'] else ')' :: ' ' :: trim (spell w.back)) =
      tokenNames w.back := by
    rw [names_pad_append, ← hback, ← names_trim (spell w.back)]
    split
    · next h => rw [h]; rfl
    · rw [names_cons (by decide), names_cons (by decide)]
  rw [htokens, ← hl.of_append_left.names_spell, ← names_windowParts hinner.of_append_left, Window.lines]
  simp only [namesIn_append, namesIn_cons, namesIn_nil, List.append_nil, names_trim, hover, hclose,
    namesIn_map (names_pad_append _), namesIn_filter]
  rw [List.append_assoc]

theorem names_reflowWindow {indent : Nat} {code m : Text} (h : reflowWindow indent code = some m) : names m = names code := by
  simp only [reflowWindow] at h
  split at h
  · cases h
  split at h
  · cases h
  · next w hw =>
    split at h
    · cases h
    · cases h
      obtain ⟨hk, sp, hsp, e⟩ := window?_tokens hw
      rw [names_joinLines, names_window hk hsp (e ▸ legible_tokenize code), ← e, names_eq_tokenNames]

theorem Item.names_reflow (indent : Nat) (i : Item) : (i.reflow indent).names = i.names := by
  have h : SqlLayout.names ((SqlLayout.reflow indent i.code).getD i.code) = SqlLayout.names i.code := by
    cases e : SqlLayout.reflow indent i.code with
    | none => rfl
    | some m =>
      unfold SqlLayout.reflow at e
      split at e
      · cases e
      · rcases Option.or_eq_some_iff.mp e with e | ⟨-, e⟩
        · exact names_reflowCase e
        · exact names_reflowWindow e
  rw [names, names, Item.reflow, h]

/-! ## Aliases -/

theorem splitLastAs_nameless {n : Nesting} {ts a b : List Token} (h : splitLastAs n ts = some (a, b)) : Nameless b := by
  induction ts generalizing n a b with
  | nil => cases h
  | cons t ts ih =>
    rw [splitLastAs] at h
    split at h
    · next e => cases h; exact ih e
    · split at h
      · next hk =>
        cases h
        exact nameless_keyword (Nesting.topKeyword_eq_some.mp hk).2 rfl _
      · cases h

theorem names_splitAlias {code front back : Text} (h : splitAlias code = some (front, back)) (n : Nat) :
    names (front ++ pad (n + 1) ++ back) = names code := by
  unfold splitAlias at h
  split at h
  · cases h
  split at h
  · cases h
  · next t ts e =>
    obtain ⟨⟨a, b⟩, hab, h⟩ := Option.map_eq_some_iff.mp h
    cases h
    obtain ⟨rfl, -⟩ := splitLastAs_tokens hab
    have hl := legible_tokenize code
    rw [e, ← List.cons_append] at hl
    have hstops : StopsName (pad (n + 1) ++ spell b) := stopsName_cons (c := ' ') (by decide) _
    rw [List.append_assoc, names_append hstops, names_trimEnd, names_pad_append, names_eq_tokenNames code, e,
      ← List.cons_append, tokenNames_append (.inr (splitLastAs_nameless hab)), ← hl.of_append_left.names_spell,
      ← hl.of_append_right.names_spell]
    rfl

theorem Item.names_alignAlias (width : Nat) (i : Item) : (i.alignAlias width).names = i.names := by
  unfold alignAlias
  split
  · next e => rw [names, names, names_splitAlias e]
  · rfl

/-! ## Modifiers -/

theorem nextIf_last {p : Token → Bool} {ts a b : List Token} (h : nextIf p ts = some (a, b)) :
    ∃ t, a.getLast? = some t ∧ p t := by
  unfold nextIf at h
  split at h
  · next t us e =>
    split at h
    · next ht => cases h; exact ⟨t, by simp, ht⟩
    · cases h
  · cases h

theorem nextIf_ne_dot {p : Token → Bool} (hp : p .dot = false) {ts a b : List Token} (h : nextIf p ts = some (a, b)) :
    a.getLast? ≠ some .dot ∧ a ≠ [] := by
  obtain ⟨t, ha, ht⟩ := nextIf_last h
  refine ⟨fun e => ?_, fun e => by rw [e] at ha; cases ha⟩
  obtain rfl := Option.some.inj (ha.symm.trans e)
  rw [hp] at ht
  cases ht

theorem getLast_append_ne_dot {ts us : List Token} (h : ts.getLast? ≠ some .dot) (h' : us.getLast? ≠ some .dot) :
    (ts ++ us).getLast? ≠ some .dot := by
  rw [List.getLast?_append]
  cases e : us.getLast? with
  | none => exact h
  | some t => rw [e] at h'; exact h'

theorem optional_ne_dot {take : List Token → Option (List Token × List Token)} {ts : List Token}
    (h : ∀ a b, take ts = some (a, b) → a.getLast? ≠ some .dot) : (optional take ts).1.getLast? ≠ some .dot := by
  unfold optional
  cases e : take ts with
  | none => exact Option.some_ne_none _ ∘ Eq.symm
  | some p => exact h p.1 p.2 e

theorem takeCount_ne_dot {ts a b : List Token} (h : takeCount ts = some (a, b)) : a.getLast? ≠ some .dot := by
  unfold takeCount at h
  split at h
  · next p e => cases h; exact (nextIf_ne_dot rfl e).1
  · obtain ⟨⟨a₁, b₁⟩, -, h⟩ := Option.bind_eq_some_iff.mp h
    obtain ⟨⟨inner, rest⟩, -, h⟩ := Option.bind_eq_some_iff.mp h
    cases h
    simp

theorem takeTies_ne_dot {ts a b : List Token} (h : takeTies ts = some (a, b)) : a.getLast? ≠ some .dot := by
  obtain ⟨⟨a₁, b₁⟩, e₁, h⟩ := Option.bind_eq_some_iff.mp h
  obtain ⟨⟨c, d⟩, e₂, h⟩ := Option.bind_eq_some_iff.mp h
  cases h
  exact getLast_append_ne_dot (nextIf_ne_dot rfl e₁).1 (nextIf_ne_dot rfl e₂).1

theorem takeTop_ne_dot {ts a b : List Token} (h : takeTop ts = some (a, b)) : a.getLast? ≠ some .dot := by
  obtain ⟨⟨count, rest⟩, e, h⟩ := Option.map_eq_some_iff.mp h
  obtain ⟨rfl, -⟩ := Prod.mk.inj h
  exact getLast_append_ne_dot
    (getLast_append_ne_dot (takeCount_ne_dot e) (optional_ne_dot fun _ _ h => (nextIf_ne_dot rfl h).1))
    (optional_ne_dot fun _ _ => takeTies_ne_dot)

theorem takeModifier_ne_dot {ts a b : List Token} (h : takeModifier ts = some (a, b)) : a.getLast? ≠ some .dot := by
  unfold takeModifier at h
  split at h
  · cases h
  · next t us e =>
    have h := (Option.filter_eq_some_iff.mp h).1
    split at h
    · next hk => cases h; simpa using ne_dot_of_keyword hk
    · next hk => cases h; simpa using ne_dot_of_keyword hk
    · next hk =>
      obtain ⟨⟨c, d⟩, e₂, h⟩ := Option.map_eq_some_iff.mp h
      cases h
      have ht : [t].getLast? ≠ some .dot := by simpa using ne_dot_of_keyword hk
      exact getLast_append_ne_dot ht (takeTop_ne_dot e₂)
    · cases h

theorem tokenNames_dropWhile_isSpace (ts : List Token) : tokenNames (ts.dropWhile Token.isSpace) = tokenNames ts := by
  induction ts with
  | nil => rfl
  | cons t ts ih =>
    cases hs : t.isSpace with
    | true =>
      have ht : t ≠ .dot := by rintro rfl; cases hs
      rw [List.dropWhile_cons_of_pos hs, ih, tokenNames_cons ht, Token.inner_of_isSpace hs, List.nil_append]
    | false => rw [List.dropWhile_cons_of_neg (by simp [hs])]

theorem names_takeModifiers {ts : List Token} (hl : Legible ts) :
    namesIn (takeModifiers ts).1 ++ tokenNames (takeModifiers ts).2 = tokenNames ts ∧ Legible (takeModifiers ts).2 := by
  fun_induction takeModifiers ts with
  | case1 ts a b h hlt ih =>
    obtain ⟨e, -⟩ := takeModifier_eq h
    have hl : Legible (a ++ b) := e ▸ hl.of_infix (List.dropWhile_suffix _).isInfix
    obtain ⟨ih, hlr⟩ := ih hl.of_append_right
    have ha : ∀ t ∈ a, t.isLineComment = false := fun t ht => isLineComment_of_isComment (takeModifier_noComment h t ht)
    refine ⟨?_, hlr⟩
    rw [← tokenNames_dropWhile_isSpace ts, e, tokenNames_append (.inl (takeModifier_ne_dot h)), ← ih,
      ← names_collapse hl.of_append_left ha, ← List.append_assoc]
    rfl
  | case2 ts h => exact ⟨rfl, hl⟩

theorem names_splitModifiers {ts : List Token} (hl : Legible ts) :
    (splitModifiers ts).1.elim [] names ++ tokenNames (splitModifiers ts).2 = tokenNames ts ∧
      Legible (splitModifiers ts).2 := by
  obtain ⟨e, hlr⟩ := names_takeModifiers hl
  refine ⟨?_, hlr⟩
  rw [← e]
  unfold splitModifiers
  simp only
  split
  · next h => rw [h]; rfl
  · rw [Option.elim_some, names_intercalate (by decide) (by decide)]

/-! ## Lists and predicates -/

theorem tokenNames_commaGroups (n : Nesting) (ts : List Token) :
    (commaGroups n ts).flatMap tokenNames = tokenNames ts := by
  refine commaGroups_induction (P := fun _ ts gs => gs.flatMap tokenNames = tokenNames ts)
    (fun _ ts _ => by simp) (fun _ a lc rest gs _ _ hlc _ ih => ?_) n ts
  rw [List.flatMap_cons, ih, tokenNames_append (.inr (nameless_trivia hlc)), tokenNames_append (.inr (nameless_cons.mpr rfl)),
    tokenNames_cons (by decide), tokenNames_append (.inl (getLast_ne_dot_of_trivia hlc)), List.append_assoc]
  rfl

theorem names_listItems {ts : List Token} (hl : Legible ts) : (listItems ts).flatMap Item.names = tokenNames ts := by
  rw [listItems, names_items fun g hg => (commaGroups_readable {} hl g hg).1, tokenNames_commaGroups]

theorem names_conditionItems {ts : List Token} (hl : Legible ts) :
    (conditionItems ts).flatMap Item.names = tokenNames ts := by
  obtain ⟨g, gs, e, hgs, -⟩ := conditionGroups_starts {} 0 false ts
  have hflat := (conditionGroups_flatten {} 0 false ts).2
  have hread := conditionGroups_readable hl
  have hcut : ∀ h ∈ gs, Nameless h := fun h hm => by
    have hhead := hgs h hm
    cases h with
    | nil => rfl
    | cons t h =>
      have ht : t.isCut := hhead
      simp only [Token.isCut, Token.isKeyword, Bool.or_eq_true, decide_eq_true_eq] at ht
      rcases ht with ht | ht <;> exact nameless_keyword ht rfl _
  obtain ⟨hn, egs⟩ := tokenNames_flatten hcut
  rw [e, List.flatten_cons] at hflat
  rw [conditionItems, names_items hread, e, List.flatMap_cons, ← egs, ← tokenNames_append (.inr hn), hflat]

end SqlLayout

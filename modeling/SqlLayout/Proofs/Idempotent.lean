import SqlLayout.Proofs.Again
import SqlLayout.Proofs.Rebuilt
import SqlLayout.Proofs.Single

/-!
# A SELECT without comments is formatted once

The lines of a SELECT without comments, read again, are the same clauses with
the same bodies, and their words keep their letter case if no keyword touches
a dot. So they are laid out as they are
(`Block.format_again_without_comments`).
-/

namespace SqlLayout

/-! ## Sections -/

theorem opens_keywords {k : Keyword} {t : Token} {ts tokens : List Token} {kind : ClauseKind} {more : Text}
    (ht : t.keyword = some k) (h : opens k ts = some (kind, more, tokens)) (hl : Lexed (t :: ts)) (hs : Stable (t :: ts)) :
    ∃ ws, t :: ts = ws ++ tokens ∧ Keywords ws (t.text ++ more) := by
  have hword := keywords_single ht (hl.formed List.mem_cons_self) (hs.of_subset (by simp))
  have alone : more = [] ∧ tokens = ts → ∃ ws, t :: ts = ws ++ tokens ∧ Keywords ws (t.text ++ more) := by
    rintro ⟨rfl, rfl⟩
    exact ⟨[t], rfl, by rwa [List.append_nil]⟩
  have withBy : ∀ {kind' u us}, ts.dropWhile Token.isSpace = u :: us →
      (if u.isKeyword .BY then some (kind', ' ' :: u.text, us) else none) = some (kind, more, tokens) →
      ∃ ws, t :: ts = ws ++ tokens ∧ Keywords ws (t.text ++ more) := by
    intro kind' u us eu h
    split at h
    · next hu =>
      cases h
      have hu : u.keyword = some .BY := of_decide_eq_true hu
      have ets := List.takeWhile_append_dropWhile (p := Token.isSpace) (l := ts)
      rw [eu] at ets
      have hmem : u ∈ t :: ts := by
        rw [← ets]
        simp
      refine ⟨[t] ++ (ts.takeWhile Token.isSpace ++ [u]), by simp [ets],
        hword.blank ?_ (fun v hv => List.mem_takeWhile_imp hv) ?_⟩
      · exact keywords_single hu (hl.formed hmem) (hs.of_subset (by simpa using hmem))
      · -- two words do not touch
        intro hnil
        rw [hnil, List.nil_append] at ets
        rw [← ets] at hl
        rw [hl.keyword_next ht] at hu
        cases hu
    · cases h
  unfold opens at h
  cases eu : ts.dropWhile Token.isSpace with
  | nil => cases k <;> simp only [eu] at h <;> first
      | (cases h; exact alone ⟨rfl, rfl⟩)
      | cases h
  | cons u us => cases k <;> simp only [eu] at h <;> first
      | (cases h; exact alone ⟨rfl, rfl⟩)
      | exact withBy eu h
      | cases h

def Section.part (s : Section) : Text × List Token := (s.keyword, s.tokens)

theorem sections_headed (n : Nesting) {ts : List Token} (hl : Lexed ts) (hs : Stable ts) :
    ∃ rest, ts = (sections n ts).1 ++ rest ∧ Headed rest ((sections n ts).2.map Section.part) := by
  induction ts generalizing n with
  | nil => exact ⟨[], rfl, .nil⟩
  | cons t ts ih =>
    obtain ⟨rest, ets, hrest⟩ := ih (n.step t) (hl.of_infix (List.suffix_cons t ts).isInfix)
      (hs.of_subset (List.subset_cons_self t ts))
    rw [sections]
    generalize sections (n.step t) ts = p at ets hrest
    obtain ⟨front, later⟩ := p
    simp only at ets hrest ⊢
    split
    · next kind more tokens h =>
      obtain ⟨k, hk, ho⟩ := Option.bind_eq_some_iff.mp h
      have hfront : t :: front <+: t :: ts := ⟨rest, by rw [ets, List.cons_append]⟩
      obtain ⟨ws, ews, hws⟩ := opens_keywords (Nesting.topKeyword_eq_some.mp hk).2 ho (hl.of_infix hfront.isInfix)
        (hs.of_subset hfront.subset)
      refine ⟨t :: ts, rfl, ?_⟩
      rw [ets, ← List.cons_append, ews, List.append_assoc]
      exact .cons hws hrest
    · exact ⟨rest, by rw [ets, List.cons_append], hrest⟩

/-! ## The SELECT is read again -/

theorem any_isCode_solids (ts : List Token) : (solids ts).any Token.isCode = ts.any Token.isCode := by
  rw [solids, List.any_filter]
  exact List.any_congr rfl fun t => by cases t <;> rfl

theorem checkShape_congr {front front' : List Token} (h : solids front' = solids front) (kinds : List ClauseKind) :
    Select.checkShape front' kinds = Select.checkShape front kinds := by
  unfold Select.checkShape
  rw [← any_isCode_solids front', h, any_isCode_solids]

theorem isCode_of_checkShape {front : List Token} {kinds : List ClauseKind} (h : Select.checkShape front kinds = .ok ()) :
    front.any Token.isCode = false := by
  unfold Select.checkShape at h
  split at h
  · cases h
  split at h
  · cases h
  split at h
  · cases h
  split at h
  · cases h
  · next hc => simpa using hc

theorem Stable.all_isSpace {ts : List Token} (h : Stable ts) (hc : ts.any Token.isCode = false) : ∀ t ∈ ts, t.isSpace := by
  intro t ht
  have hcode := List.any_eq_false.mp hc t ht
  rwa [Token.isCode, Bool.not_eq_true, Bool.not_eq_false', h.isTrivia t ht] at hcode

theorem sections_behind_space {ts : List Token} (hl : Lexed ts) (hs : Stable ts)
    (hc : (sections {} ts).1.any Token.isCode = false) :
    ∃ rest, rest <:+: ts ∧ beads true ts = beads true rest ∧ Headed rest ((sections {} ts).2.map Section.part) := by
  obtain ⟨rest, e, h⟩ := sections_headed {} hl hs
  generalize sections {} ts = p at e h hc
  obtain ⟨front, found⟩ := p
  have hfront : Stable front := hs.of_subset (e ▸ List.subset_append_left front rest)
  exact ⟨rest, e ▸ (List.suffix_append front rest).isInfix,
    by rw [e, beads_space_append (List.all_eq_true.mpr (hfront.all_isSpace hc))], h⟩

/-- Text with other space is a SELECT too, and has no comment in front. -/
theorem Select.ofText_congr {sql sql' : Text} (hs : Stable (tokenize sql')) (e : solidsOf sql' = solidsOf sql) {s : Select}
    (h : Select.ofText sql = .ok s) : (sections {} (tokenize sql')).1.any Token.isCode = false ∧
      Select.ofText sql' = .ok ⟨none, (sections {} (tokenize sql')).2.map Section.clause⟩ := by
  have hsections := sections_solids {} (tokenize sql')
  rw [show solids (tokenize sql') = solids (tokenize sql) from e, sections_solids] at hsections
  obtain ⟨hfront, hfound⟩ := Prod.mk.inj hsections
  have hkinds : (sections {} (tokenize sql')).2.map Section.kind = (sections {} (tokenize sql)).2.map Section.kind := by
    have := congrArg (List.map Section.kind) hfound.symm
    rwa [List.map_map, List.map_map] at this
  have hop : setOperator? {} (tokenize sql) = none → setOperator? {} (tokenize sql') = none := by
    rw [setOperator?_eq_none, setOperator?_eq_none, show solids (tokenize sql') = solids (tokenize sql) from e]
    exact id
  have hnest : Nesting.after (tokenize sql') = Nesting.after (tokenize sql) := Nesting.after_congr e
  unfold ofText at h ⊢
  simp only at h ⊢
  split at h
  · cases h
  next hset =>
  split at h
  · cases h
  next hbal =>
  split at h
  · cases h
  next hshape =>
  rw [← checkShape_congr hfront.symm, ← hkinds] at hshape
  have hblank := isCode_of_checkShape hshape
  have hlead : trim (spell (sections {} (tokenize sql')).1) = [] := by
    have hpre := (sections_parts {} (tokenize sql') fun _ => formed_of_mem).2.1
    exact trim_space (fun t ht => (lexed_tokenize sql').formed (hpre.subset ht))
      ((hs.of_subset hpre.subset).all_isSpace hblank)
  refine ⟨hblank, ?_⟩
  rw [hop hset, hnest]
  simp only
  rw [if_neg hbal, hshape, hlead]
  rfl

/-! ## The clauses are laid out again -/

/-- Clauses that are laid out, and the beads of their lines. -/
inductive LaidOut (o : Options) : List Section → List (Clause × Body) → List (Text × List Bead) → Prop
  | nil : LaidOut o [] [] []
  | cons {s : Section} {b : Body} {bs : List Bead} {found : List Section} {bodies : List (Clause × Body)}
      {qs : List (Text × List Bead)} : b.Strand o.pullsOperators bs → SplitsAgain o s.kind s.keyword s.tokens b →
      Carries (beadsOf s.keyword ++ bs) (clauseLines o s.keyword b) → LaidOut o found bodies qs →
      LaidOut o (s :: found) ((s.clause, b) :: bodies) ((s.keyword, bs) :: qs)

def linesBelow (o : Options) (above : List Text) (bodies : List (Clause × Body)) : List Text :=
  bodies.foldl (fun above p => attach (o.inlines p.1.kind) above (clauseLines o p.1.keyword p.2)) above

theorem laidOut_of_mapM {o : Options} {found : List Section} (hf : ∀ s ∈ found, Lexed s.tokens ∧ Stable s.tokens)
    (hk : ∀ s ∈ found, Stable (tokenize s.keyword)) (hd : ∀ s ∈ found, droppedCommas s.clause.elements = 0)
    {bodies : List (Clause × Body)}
    (h : ((found.map Section.clause).mapM fun c => (c.split o).map fun b => (c, b)) = .ok bodies) :
    ∃ qs, LaidOut o found bodies qs := by
  induction found generalizing bodies with
  | nil =>
    cases h
    exact ⟨[], .nil⟩
  | cons s found ih =>
    rw [List.map_cons, List.mapM_cons] at h
    cases hb : s.clause.split o with
    | error f =>
      rw [hb] at h
      cases h
    | ok b =>
      cases hbs : ((found.map Section.clause).mapM fun c => (c.split o).map fun b => (c, b)) with
      | error f =>
        rw [hb, hbs] at h
        cases h
      | ok later =>
        rw [hb, hbs] at h
        obtain rfl : (s.clause, b) :: later = bodies := by
          cases h
          rfl
        obtain ⟨hl, hs⟩ := hf s List.mem_cons_self
        obtain ⟨hstable, hagain⟩ := Clause.split_again hl hs hb (hd s List.mem_cons_self)
        obtain ⟨bs, hstrand, hc⟩ := carries_clauseLines o (hk s List.mem_cons_self) hstable
        obtain ⟨qs, hqs⟩ := ih (fun u hu => hf u (List.mem_cons_of_mem s hu)) (fun u hu => hk u (List.mem_cons_of_mem s hu))
          (fun u hu => hd u (List.mem_cons_of_mem s hu)) hbs
        exact ⟨(s.keyword, bs) :: qs, .cons hstrand hagain hc hqs⟩

namespace LaidOut

variable {o : Options} {found : List Section} {bodies : List (Clause × Body)} {qs : List (Text × List Bead)}
  (h : LaidOut o found bodies qs)
include h

theorem replaces : List.Forall₂ (fun p q => p.1 = q.1 ∧ Replaces q.2 (beads true p.2)) (found.map Section.part) qs := by
  induction h with
  | nil => exact .nil
  | cons hstrand hagain _ _ ih => exact .cons ⟨rfl, (hagain _ hstrand).1⟩ ih

theorem carries {above : List Text} {cs : List Bead} (ha : Carries cs above) :
    Carries (cs ++ qs.flatMap fun q => beadsOf q.1 ++ q.2) (linesBelow o above bodies) := by
  induction h generalizing above cs with
  | nil => simpa [linesBelow] using ha
  | @cons s b bs found bodies qs _ _ hc _ ih =>
    have := ih (carries_attach (o.inlines s.kind) ha hc)
    rw [List.append_assoc] at this
    exact this

theorem cut {found' : List Section} {rest : List Token} (hh : Headed rest (found'.map Section.part))
    (hs : found'.map Section.solids = found.map Section.solids)
    (hb : beads true rest = qs.flatMap fun q => beadsOf q.1 ++ q.2) :
    List.Forall₂ (fun p q => p.1 = q.1 ∧ beads true p.2 = q.2) (found'.map Section.part) qs := by
  refine hh.cut hb ?_
  have hr := h.replaces
  clear h hh hb
  induction found' generalizing found qs with
  | nil =>
    obtain rfl : found = [] := by simpa using hs.symm
    cases hr
    exact .nil
  | cons s' found' ih =>
    cases found with
    | nil => cases hs
    | cons s found =>
      cases hr with
      | cons hq hr =>
        obtain ⟨hhead, hs⟩ := List.cons.inj hs
        have hkeyword : s'.solids.keyword = s.solids.keyword := congrArg Section.keyword hhead
        have htokens : s'.solids.tokens = s.solids.tokens := congrArg Section.tokens hhead
        obtain ⟨hword, hloose, hparted⟩ := hq
        refine .cons ⟨hkeyword.trans hword, ?_, hparted⟩ (ih hs hr)
        rw [hloose.tokens, map_snd_beads]
        exact htokens

theorem again {found' : List Section} (hl : ∀ s ∈ found', Lexed s.tokens)
    (hkinds : found'.map Section.kind = found.map Section.kind)
    (hb : List.Forall₂ (fun p q => p.1 = q.1 ∧ beads true p.2 = q.2) (found'.map Section.part) qs) :
    ∃ bodies', ((found'.map Section.clause).mapM fun c => (c.split o).map fun b => (c, b)) = .ok bodies' ∧
      ∀ above, linesBelow o above bodies' = linesBelow o above bodies := by
  induction h generalizing found' with
  | nil =>
    obtain rfl : found' = [] := by simpa using hkinds
    exact ⟨[], rfl, fun above => rfl⟩
  | @cons s b bs found bodies qs hstrand hagain _ _ ih =>
    cases found' with
    | nil => cases hkinds
    | cons s' found' =>
      obtain ⟨hkind, hlater⟩ := List.cons.inj hkinds
      obtain ⟨⟨hkeyword, hbs⟩, hrest⟩ := List.forall₂_cons.mp hb
      obtain ⟨kind, keyword, tokens⟩ := s'
      obtain rfl : kind = s.kind := hkind
      obtain rfl : keyword = s.keyword := hkeyword
      obtain ⟨b', hsplit, hlines⟩ := (hagain bs hstrand).2 tokens (hl _ List.mem_cons_self) hbs
      obtain ⟨bodies', hmap, hbelow⟩ := ih (fun u hu => hl u (List.mem_cons_of_mem _ hu)) hlater hrest
      refine ⟨(⟨s.kind, s.keyword, trim (spell tokens)⟩, b') :: bodies', ?_, fun above => ?_⟩
      · rw [List.map_cons, List.mapM_cons, hmap, Section.clause, hsplit]
        rfl
      · have := hbelow (attach (o.inlines s.kind) above (clauseLines o s.keyword b))
        simp only [linesBelow, List.foldl_cons, hlines] at this ⊢
        exact this

end LaidOut

/-! ## The whole SELECT -/

theorem checkTokens_of_flat {ts : List Token} (h : Flat ts) : checkTokens ts = .ok () := by
  induction ts with
  | nil => rfl
  | cons t ts ih =>
    obtain ⟨ht, hts⟩ := List.forall_mem_cons.mp h
    rw [Token.isFlat, Bool.and_eq_true, Bool.not_eq_true', Bool.not_eq_true'] at ht
    rw [checkTokens, ht.1, ht.2, if_neg (by decide), if_neg (by decide), ih hts]

theorem selectLines_eq_ok {o : Options} {sql : Text} {lines : List Text} (h : selectLines o sql = .ok lines) :
    checkTokens (tokenize (recase o sql)) = .ok () ∧
      ∃ s, Select.ofText (recase o sql) = .ok s ∧ s.lines o = .ok lines := by
  simp only [selectLines] at h
  cases hc : checkTokens (tokenize (recase o sql)) with
  | error f =>
    rw [hc] at h
    cases h
  | ok u =>
    cases hs : Select.ofText (recase o sql) with
    | error f =>
      rw [hc, hs] at h
      cases h
    | ok s =>
      rw [hc, hs] at h
      exact ⟨rfl, s, rfl, h⟩

theorem Select.lines_eq_ok {o : Options} {found : List Section} {out : List Text}
    (h : (Select.mk none (found.map Section.clause)).lines o = .ok out) :
    ∃ bodies, ((found.map Section.clause).mapM fun c => (c.split o).map fun b => (c, b)) = .ok bodies ∧
      linesBelow o [] bodies = out := by
  simp only [Select.lines] at h
  cases hb : ((found.map Section.clause).mapM fun c => (c.split o).map fun b => (c, b)) with
  | error f =>
    rw [hb] at h
    cases h
  | ok bodies =>
    rw [hb] at h
    exact ⟨bodies, rfl, Except.ok.inj h⟩

/-- A SELECT whose words have their letter case is laid out as lines that are
laid out as they are. -/
theorem selectLines_again {o : Options} {sql : Text} (hs : Stable (tokenize sql)) (hk : KeywordsApart (tokenize sql))
    (hr : recase o sql = sql) (hd : droppedOf sql = 0) {lines : List Text} (h : selectLines o sql = .ok lines) :
    selectLines o (joinLines lines) = .ok lines := by
  obtain ⟨-, s, hof, hlines⟩ := selectLines_eq_ok h
  rw [hr] at hof
  obtain ⟨hblank, hof'⟩ := Select.ofText_congr hs rfl hof
  obtain rfl := Except.ok.inj (hof.symm.trans hof')
  obtain ⟨bodies, hbodies, hbelow⟩ := Select.lines_eq_ok hlines
  have hl := lexed_tokenize sql
  obtain ⟨rest, hrest, hbeads, hheaded⟩ := sections_behind_space hl hs hblank
  have hpart := fun s (hm : s ∈ (sections {} (tokenize sql)).2) => (hheaded.isInfix _ (List.mem_map_of_mem hm)).trans hrest
  have hdropped : ∀ s ∈ (sections {} (tokenize sql)).2, droppedCommas s.clause.elements = 0 := by
    rw [droppedOf, hof] at hd
    simp only [Select.lists, List.map_map, List.sum_eq_zero_iff, List.forall_mem_map] at hd
    exact hd
  obtain ⟨qs, hlaid⟩ := laidOut_of_mapM (fun s hm => ⟨hl.of_infix (hpart s hm), hs.of_subset (hpart s hm).subset⟩)
    (fun s hm => hheaded.stable _ (List.mem_map_of_mem hm)) hdropped hbodies
  -- the lines hold the same tokens with other gaps
  obtain ⟨hstable, hcarried⟩ : Stable (tokenize (joinLines lines)) ∧ beadsOf (joinLines lines) = _ :=
    hbelow ▸ (hlaid.carries Carries.nil).joinLines
  rw [List.nil_append] at hcarried
  have hloose : Loosens (beads true (tokenize sql)) (beadsOf (joinLines lines)) := by
    rw [hcarried, hbeads]
    exact (hheaded.replaces hlaid.replaces).1
  have hsolids : solidsOf (joinLines lines) = solidsOf sql := solids_of_loosens hloose
  have hrecase : recase o (joinLines lines) = joinLines lines := by
    have hcased : recaseFrom o [] (tokenize sql) = tokenize sql := by
      conv_rhs => rw [← hr, tokenize_recase, recaseTokens]
    rw [recase, recaseTokens, Loosens.recaseFrom_eq hloose hk hcased, spell_tokenize]
  -- the clauses are found again
  obtain ⟨hblank', hselect⟩ := Select.ofText_congr hstable hsolids hof
  have hl' := lexed_tokenize (joinLines lines)
  obtain ⟨rest', hrest', hbeads', hheaded'⟩ := sections_behind_space hl' hstable hblank'
  have hsections : (sections {} (tokenize (joinLines lines))).2.map Section.solids =
      (sections {} (tokenize sql)).2.map Section.solids := by
    have := sections_solids {} (tokenize (joinLines lines))
    rw [show solids (tokenize (joinLines lines)) = solids (tokenize sql) from hsolids, sections_solids] at this
    exact (Prod.mk.inj this).2.symm
  have hkinds : (sections {} (tokenize (joinLines lines))).2.map Section.kind =
      (sections {} (tokenize sql)).2.map Section.kind := by
    have := congrArg (List.map Section.kind) hsections
    rwa [List.map_map, List.map_map] at this
  obtain ⟨bodies', hbodies', hagain⟩ := hlaid.again
    (fun s hm => hl'.of_infix ((hheaded'.isInfix _ (List.mem_map_of_mem hm)).trans hrest')) hkinds
    (hlaid.cut hheaded' hsections (hbeads'.symm.trans hcarried))
  have hrun : (Select.mk none ((sections {} (tokenize (joinLines lines))).2.map Section.clause)).lines o =
      .ok (linesBelow o [] bodies') := by
    simp only [Select.lines, hbodies']
    rfl
  rw [selectLines, hrecase, checkTokens_of_flat hstable.flat, hselect]
  simp only [bind, Except.bind]
  rw [hrun, hagain, hbelow]

/-! ## Blocks -/

theorem recase_keywordsApart {o : Options} {sql : Text} (h : KeywordsApart (tokenize sql)) :
    KeywordsApart (tokenize (recase o sql)) := by
  have plain : ∀ ts : List Token, KeywordsApart ts ↔
      (ts.map Token.plain).IsChain fun t u => (t = .dot → u.keyword = none) ∧ (u = .dot → t.keyword = none) := by
    intro ts
    have hdot : ∀ t : Token, t.plain = .dot ↔ t = .dot := by
      intro t
      cases t <;> simp [Token.plain]
    rw [KeywordsApart, List.isChain_map]
    simp only [Token.keyword_plain, hdot]
  rw [plain] at h ⊢
  rwa [tokenize_recase, recaseTokens, map_plain_recaseFrom]

theorem stable_recase {o : Options} {sql : Text} (hc : ∀ t ∈ tokenize sql, t.isComment = false) (hb : hards sql = 0)
    (hf : Flat (tokenize (recase o sql))) : Stable (tokenize (recase o sql)) := by
  have hl := lexed_tokenize (recase o sql)
  have hh : hards (spell (tokenize (recase o sql))) = 0 := by
    rw [spell_tokenize, ← hards_upper, upper_recase, hards_upper, hb]
  have hbare : ∀ t ∈ tokenize (recase o sql), t.isComment = false := by
    intro t ht
    have hm : t.plain ∈ (tokenize sql).map Token.plain := by
      rw [← map_plain_recaseFrom o [], ← recaseTokens, ← tokenize_recase]
      exact List.mem_map_of_mem ht
    obtain ⟨u, hu, e⟩ := List.mem_map.mp hm
    have := hc u hu
    rwa [← Token.isComment_plain, e, Token.isComment_plain] at this
  refine ⟨hf, hbare, fun t ht => ?_, fun t ht => Or.inr (hards_of_mem ht hh)⟩
  refine (hl.formed ht).firm (hf.isUnterminated ht) ?_ (hards_of_mem ht hh)
  have := hbare t ht
  cases t <;> first | rfl | cases this

/-- A SELECT without comments is the same when it is formatted again, if no
keyword touches a dot and space is all that is blank. -/
theorem Block.format_again_without_comments {o : Options} {content out : Text}
    (hc : ∀ t ∈ tokenize content, t.isComment = false)
    (hb : ∀ c ∈ content, isBlank c → isSpaceChar c) (hk : KeywordsApart (tokenize content))
    (h : (Block.mk .select content).format o = .ok out) : (Block.mk .select out).format o = .ok out := by
  have hfits := (Block.mk .select content).format_isOk o (hards_of_space hb)
  rw [h, fits] at hfits
  have hd : droppedOf (recase o content) = 0 := by
    rw [← droppedOf_upper, upper_recase, droppedOf_upper]
    simpa [Except.isOk, Except.toBool] using (Bool.and_eq_true _ _).mp hfits.symm |>.2
  simp only [format] at h ⊢
  cases e : selectLines o content with
  | error f =>
    rw [e] at h
    cases h
  | ok lines =>
    obtain ⟨hflat, -⟩ := selectLines_eq_ok e
    have hcased : selectLines o (recase o content) = .ok lines := by
      rw [← e, selectLines, selectLines, recase_recase]
    have hagain := selectLines_again (stable_recase hc (hards_of_space hb) (flat_of_checkTokens hflat))
      (recase_keywordsApart hk)
      (recase_recase o content) hd hcased
    have hout : joinLines lines = out := by
      rw [e] at h
      cases hp : checkPreserved content (joinLines lines) with
      | error f =>
        simp only [bind, Except.bind, hp] at h
        cases h
      | ok u =>
        simp only [bind, Except.bind, hp] at h
        exact Except.ok.inj h
    rw [← hout, hagain]
    simp only [bind, Except.bind, checkPreserved_eq_ok.mpr (List.Perm.refl _)]
    rfl

set_option maxRecDepth 100000 in
/-- The window that was broken is broken again. -/
theorem format_again_of_window :
    (∀ t ∈ tokenize "select sum(x) over (partition by b) as y from t".toList, t.isComment = false) ∧
      (∀ c ∈ "select sum(x) over (partition by b) as y from t".toList, isBlank c → isSpaceChar c) ∧
      KeywordsApart (tokenize "select sum(x) over (partition by b) as y from t".toList) ∧
      (Block.mk .select "select sum(x) over (partition by b) as y from t".toList).format {} =
        .ok "SELECT SUM(x)\n           OVER (\n               PARTITION BY b\n           ) AS y\n      FROM t".toList ∧
      (Block.mk .select
        "SELECT SUM(x)\n           OVER (\n               PARTITION BY b\n           ) AS y\n      FROM t".toList).format {} =
        .ok "SELECT SUM(x)\n           OVER (\n               PARTITION BY b\n           ) AS y\n      FROM t".toList := by
  have hc : ∀ t ∈ tokenize "select sum(x) over (partition by b) as y from t".toList, t.isComment = false := by
    decide +kernel
  have hk : KeywordsApart (tokenize "select sum(x) over (partition by b) as y from t".toList) := by decide +kernel
  have h : (Block.mk .select "select sum(x) over (partition by b) as y from t".toList).format {} =
      .ok "SELECT SUM(x)\n           OVER (\n               PARTITION BY b\n           ) AS y\n      FROM t".toList := by
    decide +kernel
  have hb : ∀ c ∈ "select sum(x) over (partition by b) as y from t".toList, isBlank c → isSpaceChar c :=
    forall_blank (by decide +kernel)
  exact ⟨hc, hb, hk, h, Block.format_again_without_comments hc hb hk h⟩

end SqlLayout

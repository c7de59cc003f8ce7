import SqlLayout.Script
import SqlLayout.Proofs.Accepts
import SqlLayout.Proofs.Count

/-!
# A layout keeps the order of the tokens

The check for lost tokens counts tokens and says nothing about their order.
The lines of a SELECT and of a WITH statement hold their tokens in order but
for commas, or they hold fewer tokens, or have lost a hard blank
(`Nears`). The last two are found by counting, so a layout that passes the
check keeps the order. How many tokens are lost is told by the statement alone
(`Loses`).
-/

namespace SqlLayout

/-! ## Lines that hold tokens or too few of them -/

def Nears (us : List Token) (ls : List Text) : Prop :=
  hardsIn ls < seen us ∨
    hardsIn ls = seen us ∧ FlatLines ls ∧ ((plainsIn ls).length < us.length ∨ Keeps 0 (plainsIn ls) us)

/-- The lines hold the tokens but for `k` of them, or have lost a hard blank.
Where none is lost they are in order but for commas. -/
def Loses (k : Nat) (us : List Token) (ls : List Text) : Prop :=
  hardsIn ls < seen us ∨
    hardsIn ls = seen us ∧ FlatLines ls ∧ (plainsIn ls).length + k = us.length ∧
      (k = 0 → Keeps 0 (plainsIn ls) us)

theorem Keeps.length_eq {k : Nat} {us vs : List Token} (h : Keeps k us vs) : vs.length = us.length + k := by
  simpa using h.perm.length_eq

theorem Lays.loses {k : Nat} {us : List Token} {ls : List Text} (h : Lays k us ls) : Loses k us ls := by
  rcases h with h | ⟨vs, hk, h | ⟨e, p, f⟩⟩
  · exact Or.inl h
  · exact Or.inl (hk.seen_eq ▸ h)
  refine Or.inr ⟨e.trans hk.seen_eq, f, ?_, ?_⟩
  · rw [p, hk.length_eq]
  · rintro rfl
    rwa [p]

theorem Spells.loses {us : List Token} {ls : List Text} (h : Spells us ls) : Loses 0 us ls := h.lays.loses

theorem endsOpen_iff {a : Text} : endsOpen a ↔ ∃ ts c, tokenize a = ts ++ [.lineComment c] := by
  constructor
  · intro h
    obtain ⟨t, ht, hc⟩ := (Option.any_eq_true ..).mp h
    obtain ⟨ts, e⟩ := List.getLast?_eq_some_iff.mp ht
    cases t with
    | lineComment c => exact ⟨ts, c, e⟩
    | _ => cases hc
  · rintro ⟨ts, c, e⟩
    simp [endsOpen, e, Token.isLineComment]

namespace Loses

variable {j k : Nat} {us vs : List Token} {ls ms : List Text}

theorem nears (h : Loses k us ls) : Nears us ls := by
  rcases h with h | ⟨e, f, hl, hk⟩
  · exact Or.inl h
  refine Or.inr ⟨e, f, ?_⟩
  rcases Nat.eq_zero_or_pos k with rfl | hp
  · exact Or.inr (hk rfl)
  · exact Or.inl (by omega)

theorem hards_le (h : Loses k us ls) : hardsIn ls ≤ seen us := by
  rcases h with h | h
  · exact h.le
  · exact h.1.le

theorem append (h : Loses j us ls) (h' : Loses k vs ms) : Loses (j + k) (us ++ vs) (ls ++ ms) := by
  have hle := h.hards_le
  have hle' := h'.hards_le
  rcases h with h | ⟨e, f, hl, hk⟩
  · exact Or.inl (by rw [hardsIn_append, seen_append]; omega)
  rcases h' with h' | ⟨e', f', hl', hk'⟩
  · exact Or.inl (by rw [hardsIn_append, seen_append]; omega)
  refine Or.inr ⟨by simp [e, e'], flatLines_append.mpr ⟨f, f'⟩, ?_, fun h => ?_⟩
  · rw [plainsIn_append, List.length_append, List.length_append]
    omega
  · rw [plainsIn_append]
    exact (hk (by omega)).append (hk' (by omega))

theorem mono (h : Loses k us ls) (hu : us = vs ∨ seen us < seen vs) : Loses k vs ls := by
  rcases hu with rfl | hu
  · exact h
  · exact Or.inl (Nat.lt_of_le_of_lt h.hards_le hu)

theorem fades (h : Loses k us ls) (hm : Fades ls ms) : Loses k us ms := by
  rcases h with h | ⟨e, f, h⟩
  · exact Or.inl (Nat.lt_of_le_of_lt hm.1 h)
  rcases hm.1.lt_or_eq with hlt | heq
  · exact Or.inl (e ▸ hlt)
  · obtain ⟨q, f⟩ := hm.2 f heq
    exact Or.inr ⟨heq.trans e, f, by rwa [q]⟩

/-- Behind a line comment a text becomes part of it, and its tokens are lost. -/
theorem glue {a b : Text} (h : Spells us [a]) (h' : Spells vs [b]) (hb : b.head?.all isBreak)
    (hn : '\n' ∉ b) (hv : vs ≠ []) : Loses (if endsOpen a then vs.length else 0) (us ++ vs) [a ++ b] := by
  have hle := h.hards_le
  have hle' := h'.hards_le
  rcases h with h | ⟨e, p, f⟩
  · exact Or.inl (by simp at *; omega)
  rcases h' with h' | ⟨e', p', f'⟩
  · exact Or.inl (by simp at *; omega)
  simp only [plainsIn_cons, plainsIn_nil, List.append_nil, flatLines_cons, flatLines_nil, and_true] at p p' f f'
  refine Or.inr ⟨by simp at *; omega, ?_⟩
  split
  · next hc =>
    obtain ⟨ts, c, ea⟩ := endsOpen_iff.mp hc
    have es := solidsOf_comment_append ea hn
    have hform : (Token.lineComment (c ++ b)).Formed := formed_of_mem (s := a ++ b) (mem_solids.mp (by
      change _ ∈ solidsOf (a ++ b)
      simp [es])).1
    refine ⟨?_, ?_, fun h => absurd (List.eq_nil_of_length_eq_zero h) hv⟩
    · rw [flatLines_cons, flat_tokenize_iff, es]
      refine ⟨Flat.append ?_ fun t ht => ?_, flatLines_nil⟩
      · exact f.of_subset (ea ▸ fun t ht => List.mem_append_left _ (mem_solids.mp ht).1)
      · rw [List.mem_singleton.mp ht]
        exact isFlat_lineComment hform
    · have hlen : us.length = (solids ts).length + 1 := by
        rw [← p, plainsOf, ea]
        simp [plains, solids_cons, Token.isSpace]
      rw [plainsIn_cons, plainsOf_eq, es]
      simp
      omega
  · next hc =>
    have es : solidsOf (a ++ b) = solidsOf a ++ solidsOf b := by
      refine solidsOf_append fun t ht => ?_
      cases b with
      | nil => exact Or.inr t.stops_nil
      | cons d r =>
        rw [or_iff_not_imp_left]
        intro hs
        refine Token.stops_cons (by simpa using hb) (f.isUnterminated (List.mem_of_getLast? ht)) (absurd · hs) ?_ r
        intro hl
        exact absurd (by rw [endsOpen, Option.mem_def.mp ht]; exact hl) hc
    have hk : Keeps 0 (plainsIn [a ++ b]) (us ++ vs) := by
      rw [plainsIn_cons, plainsOf_eq, es, List.map_append, ← plainsOf_eq, ← plainsOf_eq, p, p']
      simpa using Keeps.refl (us ++ vs)
    refine ⟨?_, hk.length_eq.symm, fun _ => hk⟩
    rw [flat_tokenize_iff] at f f'
    rw [flatLines_cons, flat_tokenize_iff, es]
    exact ⟨f.append f', flatLines_nil⟩

end Loses

/-! ## The front of a line -/

def Leads (hs : List Token) (front : Text) : Prop :=
  ∀ (k : Nat) (us : List Token) (s : Text), Loses k us [s] → Loses k (hs ++ us) [front ++ s]

theorem Heads.leads {a front : Text} {hs : List Token} (h : Heads a front) (ha : Spells hs [a]) : Leads hs front :=
  fun k _ s hu => by simpa using (ha.loses.append hu).fades (h s)

theorem Leads.append {hs ks : List Token} {front next : Text} (h : Leads hs front) (h' : Leads ks next) :
    Leads (hs ++ ks) (front ++ next) := fun k us s hu => by
  rw [List.append_assoc, List.append_assoc]
  exact h _ _ _ (h' k us s hu)

theorem leads_nil : Leads [] [] := fun _ _ _ hu => hu

theorem Worded.leads {a : Text} (h : Worded a) : Leads (plainsOf a) (a ++ [' ']) :=
  (heads_word h.takesMore 0 0).leads h.spells

theorem worded_comma : Worded [','] := worded_text (t := .comma) trivial rfl rfl rfl

theorem leads_comma : Leads [.comma] [',', ' '] := plainsOf_comma ▸ worded_comma.leads

theorem leads_mark {t : Token} (hf : t.Formed) (hl : t.isFlat) (hs : t.isSpace = false)
    (hc : t.isLineComment = false) (hstop : ∀ s, t.Stops s) : Leads [t.plain] t.text := by
  have hw := worded_text hf hl hs hc
  refine Heads.leads (fun s => ?_) (plainsOf_text hf hs ▸ hw.spells)
  have es : solidsOf (t.text ++ s) = t :: solidsOf s := by
    rw [solidsOf, tokenize_text_append hf (hstop s), solids_cons, hs]
    rfl
  refine ⟨by simp, fun h _ => ?_⟩
  obtain ⟨-, hfs, -⟩ : Flat (tokenize t.text) ∧ Flat (tokenize s) ∧ FlatLines [] := by simpa using h
  have ep : plainsOf (t.text ++ s) = t.plain :: plainsOf s := by
    rw [plainsOf_eq, es, List.map_cons, ← plainsOf_eq]
  refine ⟨by simp [ep, plainsOf_text hf hs], ?_⟩
  rw [flat_tokenize_iff] at hfs
  rw [flatLines_cons, flat_tokenize_iff, es]
  refine ⟨fun u hu => ?_, flatLines_nil⟩
  rcases List.mem_cons.mp hu with rfl | hu
  · exact hl
  · exact hfs u hu

theorem leads_openParen : Leads [.openParen] ['('] :=
  leads_mark (t := .openParen) trivial rfl rfl rfl fun _ => trivial

theorem leads_semicolon : Leads [.semicolon] [';'] :=
  leads_mark (t := .semicolon) trivial rfl rfl rfl fun _ => trivial

/-! ## Definitions -/

theorem spells_openParen : Spells [.openParen] [[' ', '(']] := by
  have hw := worded_text (t := .openParen) trivial rfl rfl rfl
  have := hw.spells.fades (Fades.space_append (w := [' ']) (by decide) _)
  rwa [plainsOf_text (t := .openParen) trivial rfl] at this

theorem worded_closeParen : Worded [')'] := worded_text (t := .closeParen) trivial rfl rfl rfl

theorem plainsOf_closeParen : plainsOf [')'] = [.closeParen] := plainsOf_text (t := .closeParen) trivial rfl

theorem Worded.spells_open {a : Text} (h : Worded a) :
    Spells (plainsOf a ++ [.openParen]) [' ' :: a ++ [' ', '(']] := by
  have := h.spells.fades (Fades.space_append (w := [' ']) (by decide) a)
  exact this.glue spells_openParen h.takesMore rfl

/-- An opening parenthesis does not hide what the text behind it ends in. -/
theorem endsOpen_openParen (s : Text) : endsOpen ('(' :: s) = endsOpen s := by
  have e : tokenize ('(' :: s) = .openParen :: tokenize s :=
    tokenize_text_append (t := .openParen) trivial trivial
  rw [endsOpen, e, endsOpen, List.getLast?_cons]
  cases (tokenize s).getLast? <;> rfl

theorem loses_definitionHead {d : Definition} {columns : List Token} (hn : Worded d.name) (ha : Worded d.as)
    (hc : HoldsColumns columns d.columns) :
    Loses d.swallowed (plainsOf d.name ++ (columns ++ (plainsOf d.as ++ [.openParen])))
      [d.name ++ (d.columns.elim [] (' ' :: ·) ++ (' ' :: d.as ++ [' ', '(']))] := by
  have htail := ha.spells_open
  unfold Definition.swallowed
  cases e : d.columns with
  | none =>
    rw [e] at hc
    obtain rfl : columns = [] := hc
    exact (hn.spells.glue htail hn.takesMore rfl).loses
  | some c =>
    rw [e] at hc
    obtain ⟨inner, ts, rfl, rfl, hi⟩ := hc
    have hclose : Spells (.closeParen :: (plainsOf d.as ++ [.openParen])) [')' :: (' ' :: d.as ++ [' ', '('])] := by
      have := worded_closeParen.spells.glue htail worded_closeParen.takesMore rfl
      rwa [plainsOf_closeParen] at this
    have hin := Loses.glue hi hclose rfl (by simp [ha.newline_notMem]) (List.cons_ne_nil _ _)
    have hlen : (Token.closeParen :: (plainsOf d.as ++ [.openParen])).length = (plainsOf d.as).length + 2 := by
      simp
    have hall := hn.leads _ _ _ (leads_openParen _ _ _ hin)
    rw [hlen] at hall
    have hd : ('(' :: normalize 0 (spell ts) ++ [')']).dropLast = '(' :: normalize 0 (spell ts) :=
      List.dropLast_concat
    rw [Option.any_some, hd, endsOpen_openParen]
    simpa using hall

theorem loses_queryLines (o : Options) {sql : Text} (hf : Flat (tokenize sql)) :
    Loses (queryLoss sql) (plainsOf sql) (queryLines o sql) := by
  have hplain := (spells_trimmedLines hf).loses
  have hok := selectLines_isOk o sql
  unfold queryLines queryLoss
  cases startsWithSelect sql with
  | false => simpa using hplain
  | true =>
    cases h : selectLines o sql with
    | error f =>
      rw [h] at hok
      simpa [← hok, Except.isOk, Except.toBool] using hplain
    | ok lines =>
      rw [h] at hok
      have := (lays_selectLines h).loses
      rw [sum_droppedCommas_listsOf] at this
      simpa [← hok, Except.isOk, Except.toBool] using this

theorem fades_indentLine (n : Nat) (l : Text) : Fades [l] [indentLine n l] := by
  unfold indentLine
  split
  · exact Fades.refl _
  · exact Fades.pad_append n l

theorem Definition.Holds.loses_lines {o : Options} {d : Definition} {us hs cs : List Token} {front close : Text}
    (h : d.Holds us) (hfront : Leads hs front) (hclose : Spells (.closeParen :: cs) [close]) :
    Loses d.loss (hs ++ (us ++ cs)) (d.lines o front close) := by
  obtain ⟨columns, ts, rfl, hc, hthin⟩ := h.parts
  have hhead := hfront _ _ _ (loses_definitionHead h.name h.as hc)
  have hbody := ((loses_queryLines o h.flat).mono (hthin.imp_right And.left)).fades
    (Fades.map (fades_indentLine o.indentSize) _)
  simpa [Definition.lines, Definition.loss] using hhead.append (hbody.append hclose.loses)

theorem spells_close : Spells [.closeParen] [[')']] := plainsOf_closeParen ▸ worded_closeParen.spells

theorem spells_close_comma : Spells [.closeParen, .comma] [[')', ',']] := by
  have := worded_closeParen.spells.glue worded_comma.spells worded_closeParen.takesMore rfl
  rwa [plainsOf_closeParen, plainsOf_comma] at this

theorem loses_laterDefinitions_before {o : Options} (ho : o.commaPlace = .before) {ds : List Definition}
    {us : List (List Token)} (h : List.Forall₂ Definition.Holds ds us) :
    Loses (ds.map Definition.loss).sum (us.flatMap (Token.comma :: ·)) (laterDefinitions o ds) := by
  induction h with
  | nil => exact Spells.nil.loses
  | cons hd _ ih =>
    have := (hd.loses_lines (o := o) leads_comma spells_close).append ih
    simpa [laterDefinitions, ho] using this

theorem loses_laterDefinitions_after {o : Options} (ho : o.commaPlace = .after) {ds : List Definition}
    {us : List (List Token)} (h : List.Forall₂ Definition.Holds ds us) :
    Loses (ds.map Definition.loss).sum (commaed us) (laterDefinitions o ds) := by
  induction h with
  | nil => exact Spells.nil.loses
  | @cons d u ds us hd hs ih =>
    cases hs with
    | nil => simpa [laterDefinitions, ho] using hd.loses_lines (o := o) leads_nil spells_close
    | cons _ _ =>
      have := (hd.loses_lines (o := o) leads_nil spells_close_comma).append ih
      rw [commaed_cons _ (List.cons_ne_nil _ _), laterDefinitions]
      simpa [ho] using this

theorem loses_definitionLines {o : Options} {hs : List Token} {front : Text} (hfront : Leads hs front)
    {ds : List Definition} {us : List (List Token)} (h : List.Forall₂ Definition.Holds ds us) (hne : ds ≠ []) :
    Loses (ds.map Definition.loss).sum (hs ++ commaed us) (definitionLines o front ds) := by
  cases h with
  | nil => exact absurd rfl hne
  | @cons d u ds us hd hs =>
    cases ho : o.commaPlace with
    | before =>
      have := (hd.loses_lines (o := o) hfront spells_close).append (loses_laterDefinitions_before ho hs)
      rw [commaed_cons_eq]
      simpa [definitionLines, ho] using this
    | after =>
      have hrest := loses_laterDefinitions_after ho hs
      cases hs with
      | nil => simpa [definitionLines, laterDefinitions, ho] using hd.loses_lines (o := o) hfront spells_close
      | cons _ _ =>
        have := (hd.loses_lines (o := o) hfront spells_close_comma).append hrest
        rw [commaed_cons _ (List.cons_ne_nil _ _), definitionLines]
        simpa [ho] using this

/-! ## WITH statements -/

theorem With.Holds.leads {w : With} {us : List Token} (h : w.Holds us) :
    Leads ((if w.semicolon then [.semicolon] else []) ++ plainsOf w.keyword)
      ((if w.semicolon then [';'] else []) ++ (w.keyword ++ [' '])) := by
  cases w.semicolon with
  | true => exact leads_semicolon.append h.keyword.leads
  | false => exact h.keyword.leads

theorem With.Holds.loses_lines {o : Options} {w : With} {us : List Token} (h : w.Holds us) :
    Loses w.loss us (w.lines o) := by
  obtain ⟨ds, ts, rfl, hds, hthin⟩ := h.parts
  have hhead := loses_definitionLines (o := o) h.leads hds h.nonempty
  have hmain : Loses (queryLoss w.main) (plainsOf w.main)
      (if startsWithSelect w.main then queryLines o w.main else (splitLines w.main).map trimEnd) := by
    split
    · exact loses_queryLines o h.flat
    · next hs => simpa [queryLoss, hs] using (spells_trimmedEnds h.flat).loses
  simpa [With.lines, With.loss] using hhead.append (hmain.mono (hthin.imp_right And.left))

theorem loses_withLines {o : Options} {sql : Text} {lines : List Text} (h : withLines o sql = .ok lines) :
    Loses (withLoss sql) (plainsOf sql) lines := by
  rw [← withLoss_upper, ← upper_recase o, withLoss_upper]
  simp only [withLines] at h
  cases hc : checkTokens (tokenize (recase o sql)) with
  | error f => rw [hc] at h; cases h
  | ok u =>
    cases hw : With.ofText (recase o sql) with
    | error f => rw [hc, hw] at h; cases h
    | ok w =>
      rw [hc, hw] at h
      cases h
      have := (With.holds_ofText hw (flat_of_checkTokens hc)).loses_lines (o := o)
      rw [plainsOf_recase] at this
      simpa [withLoss, hw] using this

/-! ## The check finds what is lost -/

/-- Lines with fewer hard blanks or fewer tokens do not pass the check. -/
theorem Nears.keeps {sql : Text} {lines : List Text} (h : Nears (plainsOf sql) lines)
    (hc : checkPreserved sql (joinLines lines) = .ok ()) : Keeps 0 (plainsOf (joinLines lines)) (plainsOf sql) := by
  have hperm := checkPreserved_eq_ok.mp hc
  rw [canonical_eq, canonical_eq] at hperm
  rcases h with h | ⟨-, f, h⟩
  · have hseen : seen (plainsOf sql) = seen (plainsOf (joinLines lines)) := by
      have := (hperm.map hards).sum_nat
      simpa only [seen, List.map_map, Function.comp_def] using this
    have := seen_plainsOf_le (joinLines lines)
    rw [hards_joinLines] at this
    omega
  · rw [plainsOf_joinLines f] at hperm ⊢
    have hlen := hperm.length_eq
    rw [List.length_map, List.length_map] at hlen
    exact h.resolve_left (by omega)

theorem Block.keeps_format {o : Options} {b : Block} {out : Text} (hk : b.kind = .select ∨ b.kind = .withStatement)
    (h : b.format o = .ok out) : Keeps 0 (plainsOf out) (plainsOf b.content) := by
  have laidOut : ∀ {r : Except Fault (List Text)}, (∀ lines, r = .ok lines → Nears (plainsOf b.content) lines) →
      (do
        let output := joinLines (← r)
        checkPreserved b.content output
        return output) = Except.ok out → Keeps 0 (plainsOf out) (plainsOf b.content) := by
    intro r hr h
    obtain ⟨lines, e, h⟩ := ok_of_bind h
    obtain ⟨⟨⟩, hc, h⟩ := ok_of_bind h
    cases h
    exact (hr lines e).keeps hc
  unfold Block.format at h
  rcases hk with hk | hk
  · rw [hk] at h
    exact laidOut (fun lines e => (lays_selectLines e).loses.nears) h
  · rw [hk] at h
    exact laidOut (fun lines e => (loses_withLines e).nears) h

/-! ## The order of code and of comments -/

def codeOf (sql : Text) : List Token := ((tokenize sql).filter Token.isCode).map Token.plain

/-- The comments of a text, line comments without their blank ends. -/
def commentsOf (sql : Text) : List Token := ((tokenize sql).filter Token.isComment).map Token.plain

theorem codeOf_eq (sql : Text) : codeOf sql = (plainsOf sql).filter Token.isCode :=
  (filter_isCode_plains (tokenize sql)).symm

theorem commentsOf_eq (sql : Text) : commentsOf sql = (plainsOf sql).filter Token.isComment :=
  (filter_plains Token.isComment_plain (fun t h => by cases t <;> first | rfl | cases h) (tokenize sql)).symm

theorem filter_isComment (ts : List Token) : (ts.filter (· ≠ .comma)).filter Token.isComment = ts.filter Token.isComment := by
  rw [List.filter_filter]
  refine List.filter_congr fun t _ => ?_
  cases t <;> rfl

theorem Keeps.codeOf_eq {s s' : Text} (h : Keeps 0 (plainsOf s) (plainsOf s')) : codeOf s = codeOf s' := by
  rw [SqlLayout.codeOf_eq, SqlLayout.codeOf_eq, h.code_eq]

theorem Keeps.commentsOf_eq {k : Nat} {s s' : Text} (h : Keeps k (plainsOf s) (plainsOf s')) : commentsOf s = commentsOf s' := by
  rw [SqlLayout.commentsOf_eq, SqlLayout.commentsOf_eq, ← filter_isComment, h.others, filter_isComment]

/-- A block that is laid out keeps its code in order and its comments in
order. Only a comma can stand elsewhere among the comments. -/
theorem format_keeps_order (o : Options) (b : Block) (out : Text)
    (hk : b.kind = .select ∨ b.kind = .withStatement) (h : b.format o = .ok out) :
    codeOf out = codeOf b.content ∧ commentsOf out = commentsOf b.content ∧
      (plainsOf out).filter (· ≠ .comma) = (plainsOf b.content).filter (· ≠ .comma) := by
  have hkeeps := b.keeps_format hk h
  exact ⟨hkeeps.codeOf_eq, hkeeps.commentsOf_eq, hkeeps.others⟩

set_option maxRecDepth 100000 in
/-- The comma behind the comment goes in front of it. -/
theorem format_keeps_order_past_comment :
    (Block.mk .select "select a -- x\n, b".toList).format { commaPlace := .after } =
        .ok "SELECT a, -- x\n       b".toList ∧
      codeOf "SELECT a, -- x\n       b".toList = codeOf "select a -- x\n, b".toList :=
  have h : (Block.mk .select "select a -- x\n, b".toList).format { commaPlace := .after } =
      .ok "SELECT a, -- x\n       b".toList := by decide +kernel
  ⟨h, (format_keeps_order _ _ _ (Or.inl rfl) h).1⟩

end SqlLayout

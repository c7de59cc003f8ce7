import SqlLayout.Proofs.Splits

/-!
# Comments go with the code in front of them

The tokens of the items are those of the list in its order, so that each token
of a list has a place in one part of one item (`tokens_tagged`). A comment on
the line on which the code of an item ends trails this item, on either side of
its comma, and a comment on a later line follows it (`comments_attached`).
-/

namespace SqlLayout

/-! ## Places -/

inductive Item.Part
  | leading
  | code
  | trailing
  | following
deriving DecidableEq

def Item.Part.tag (p : Part) (ts : List Token) : List (Part × Token) := ts.map (Prod.mk p)

def Item.tagged (i : Item) : List (Item.Part × Token) :=
  Part.leading.tag (i.leading.flatMap clipsOf) ++ (Part.code.tag (clipsOf i.code) ++
    (Part.trailing.tag (i.trailing.toList.flatMap clipsOf) ++ Part.following.tag (i.following.flatMap clipsOf)))

def tagged (k : Nat) : List Item → List (Nat × Item.Part × Token)
  | [] => []
  | i :: items => i.tagged.map (Prod.mk k) ++ tagged (k + 1) items

/-- Where the items hold the token that stands behind `front` in the list. -/
def placeBehind (items : List Item) (front : List Token) : Option (Nat × Item.Part × Token) :=
  (tagged 0 items)[(clips (withoutCommas {} front)).length]?

/-- The code of an item ends in `last`: behind it and what is no code the list
ends, or the comma of the item comes. -/
structure EndsItem (n : Nesting) (front : List Token) (last : Token) (back rest : List Token) : Prop where
  code : last.isCode
  bare : withoutCommas (front.foldl Nesting.step n) [last] = [last]
  back : ∀ t ∈ back, t.isTrivia
  rest : rest = [] ∨ rest.head? = some .comma ∧ ((front ++ [last]).foldl Nesting.step n).depth = 0

/-- Between the code and the comment no line ends, and up to the end of the
line of the comment there is no code but one comma. -/
structure SharesLine (near later : List Token) : Prop where
  before : ∀ t ∈ near, t.isNewline = false
  line : (near ++ later.takeWhile fun t => !t.isNewline).filter Token.isCode <+: [.comma]

@[simp] theorem Item.Part.tag_append (p : Part) (ts us : List Token) : p.tag (ts ++ us) = p.tag ts ++ p.tag us :=
  List.map_append

@[simp] theorem Item.Part.tag_nil (p : Part) : p.tag [] = [] := rfl

@[simp] theorem Item.Part.tag_cons (p : Part) (t : Token) (ts : List Token) : p.tag (t :: ts) = (p, t) :: p.tag ts := rfl

@[simp] theorem Item.Part.length_tag (p : Part) (ts : List Token) : (p.tag ts).length = ts.length := List.length_map _

@[simp] theorem Item.Part.map_tag (p : Part) (ts : List Token) : (p.tag ts).map Prod.snd = ts := by
  simp [tag, Function.comp_def]

theorem Item.map_tagged (i : Item) : i.tagged.map Prod.snd = i.clips := by simp [Item.tagged, Item.clips]

theorem map_tagged (k : Nat) (items : List Item) :
    (tagged k items).map (·.2.2) = items.flatMap Item.clips := by
  induction items generalizing k with
  | nil => rfl
  | cons i items ih =>
    rw [tagged, List.map_append, ih, List.map_map, List.flatMap_cons, ← Item.map_tagged]
    rfl

theorem tagged_append (k : Nat) (items items' : List Item) :
    tagged k (items ++ items') = tagged k items ++ tagged (k + items.length) items' := by
  induction items generalizing k with
  | nil => rfl
  | cons i items ih =>
    rw [List.cons_append, tagged, ih, tagged, List.append_assoc, List.length_cons, Nat.add_right_comm, Nat.add_assoc]

/-! ## The group of an item -/

theorem commaGroups_append {n : Nesting} {a : List Token} (h : withoutCommas n a = a) (ts : List Token) :
    commaGroups n (a ++ ts) = (commaGroups (a.foldl Nesting.step n) ts).modifyHead (a ++ ·) := by
  induction a generalizing n with
  | nil => cases e : commaGroups n ts <;> simp [e]
  | cons t a ih =>
    rw [withoutCommas] at h
    split at h
    · have := length_withoutCommas_le n a
      have := congrArg List.length h
      simp only [List.length_cons] at this
      omega
    · next ht =>
      rw [List.cons_append, commaGroups, if_neg ht, ih (List.cons.inj h).2, List.modifyHead_modifyHead]
      rfl

theorem commaGroups_end {n : Nesting} {a rest : List Token} (h : withoutCommas n a = a)
    (hr : rest = [] ∨ rest.head? = some .comma ∧ (a.foldl Nesting.step n).depth = 0) :
    ∃ gs, commaGroups n (a ++ rest) = (a ++ lineComments rest.tail) :: gs := by
  rw [commaGroups_append h]
  rcases hr with rfl | ⟨hc, hd⟩
  · exact ⟨[], by simp [commaGroups, lineComments, dropEndWhile]⟩
  · obtain ⟨later, rfl⟩ := List.head?_eq_some_iff.mp hc
    exact ⟨_, by rw [commaGroups, if_pos ⟨rfl, hd⟩]; rfl⟩

theorem isPrefix_of_trivia {lc front ts : List Token} {t : Token} (h : lc <+: front ++ t :: ts)
    (hlc : ∀ u ∈ lc, u.isTrivia) (ht : t.isCode) : lc <+: front := by
  obtain ⟨r, hr⟩ := h
  rcases List.append_eq_append_iff.mp hr with ⟨x, rfl, -⟩ | ⟨x, e, hx⟩
  · exact List.prefix_append _ _
  · cases x with
    | nil => simp [e]
    | cons u x =>
      obtain rfl := (List.cons.inj hx).1
      have := hlc t (by simp [e])
      simp [Token.isCode, this] at ht

/-- One group holds the end of an item and what goes with it. The tokens in
front of it are those of the earlier groups and of its own start. -/
theorem commaGroups_holds {n : Nesting} {front back rest : List Token} {last : Token}
    (h : EndsItem n front last back rest) : ∃ gs lead gs',
      commaGroups n (front ++ last :: (back ++ rest)) =
        gs ++ (lead ++ last :: (back ++ lineComments rest.tail)) :: gs' ∧
      withoutCommas n front = gs.flatten ++ lead := by
  induction hlen : front.length using Nat.strong_induction_on generalizing n front with
  | _ m ih =>
    subst hlen
    rcases commaGroups_cases n front with ⟨ew, -⟩ | ⟨a, front', rfl, ew, hd, -⟩
    · have hbare : withoutCommas n (front ++ last :: back) = front ++ last :: back := by
        rw [withoutCommas_append_eq]
        rw [← List.singleton_append, withoutCommas_append_eq]
        exact ⟨ew, h.bare, withoutCommas_trivia h.back _⟩
      obtain ⟨gs, e⟩ := commaGroups_end hbare (h.rest.imp_right (And.imp_right fun hd => by
        simpa [List.foldl_append, foldl_trivia h.back] using hd))
      exact ⟨[], front, gs, by simpa using e, by simp [ew]⟩
    · have hp : lineComments (front' ++ last :: (back ++ rest)) <+: front' :=
        isPrefix_of_trivia (lineComments_isPrefix _) (lineComments_trivia _) h.code
      have hlc := lineComments_trivia (front' ++ last :: (back ++ rest))
      have hgroups : commaGroups n (a ++ .comma :: front' ++ last :: (back ++ rest)) =
          (a ++ lineComments (front' ++ last :: (back ++ rest))) :: commaGroups (a.foldl Nesting.step n)
            ((front' ++ last :: (back ++ rest)).drop (lineComments (front' ++ last :: (back ++ rest))).length) := by
        rw [List.append_assoc, commaGroups_append ew, List.cons_append, commaGroups, if_pos ⟨rfl, hd⟩]
        rfl
      generalize lineComments (front' ++ last :: (back ++ rest)) = lc at hp hlc hgroups
      obtain ⟨r, rfl⟩ := hp
      have hfold : (a ++ .comma :: (lc ++ r)).foldl Nesting.step n = r.foldl Nesting.step (a.foldl Nesting.step n) := by
        rw [List.foldl_append, List.foldl_cons, List.foldl_append, foldl_trivia hlc]
        rfl
      obtain ⟨gs, lead, gs', e, ew'⟩ := ih r.length (by simp; omega)
        (show EndsItem (a.foldl Nesting.step n) r last back rest from
          ⟨h.code, hfold ▸ h.bare, h.back, h.rest.imp_right (And.imp_right fun hd => by
            rwa [List.foldl_append, hfold, ← List.foldl_append] at hd)⟩) rfl
      rw [List.append_assoc lc, List.drop_left, e] at hgroups
      refine ⟨(a ++ lc) :: gs, lead, gs', by rw [hgroups]; rfl, ?_⟩
      rw [withoutCommas_append, ew, withoutCommas, if_pos ⟨rfl, hd⟩, withoutCommas_append, withoutCommas_trivia hlc,
        foldl_trivia hlc, ew']
      simp

/-! ## The parts of an item -/

theorem append_code_inj {xs ys xs' ys' : List Token} {t t' : Token} (h : xs ++ t :: ys = xs' ++ t' :: ys')
    (ht : t.isCode) (ht' : t'.isCode) (hys : ∀ u ∈ ys, u.isTrivia) (hys' : ∀ u ∈ ys', u.isTrivia) :
    xs = xs' ∧ t = t' ∧ ys = ys' := by
  have hne : ∀ {a : List Token} {u v : Token} {b c : List Token}, u.isCode → (∀ w ∈ b, w.isTrivia) →
      v :: b = a ++ u :: c → a = [] := by
    intro a u v b c hu hb e
    cases a with
    | nil => rfl
    | cons w a =>
      have := hb u (by rw [(List.cons.inj e).2]; simp)
      simp [Token.isCode, this] at hu
  rcases List.append_eq_append_iff.mp h with ⟨x, rfl, e⟩ | ⟨x, rfl, e⟩
  · obtain rfl := hne ht' hys e
    simpa using e
  · obtain rfl := hne ht hys' e
    simpa [eq_comm] using e

theorem clips_singleton {t : Token} (ht : t.isCode) : clips [t] = [t] := by
  have hs : t.isSpace = false := by
    simp only [Token.isCode, Token.isTrivia, Bool.not_eq_true', Bool.or_eq_false_iff] at ht
    exact ht.1
  rw [clips, solids_cons, if_neg (by simp [hs])]
  cases t <;> first | rfl | cases ht

/-- Behind the last code token of an item, the tokens up to the first line
break trail it and the others follow. -/
theorem Item.tagged_ofTokens? {lead back : List Token} {last : Token} (hr : Readable (lead ++ last :: back))
    (hlast : last.isCode) (hback : ∀ t ∈ back, t.isTrivia) : ∃ i front trail follow,
      Item.ofTokens? (lead ++ last :: back) = some i ∧ front.map Prod.snd = SqlLayout.clips lead ∧
      i.tagged = front ++ (.code, last) ::
        (Part.trailing.tag (SqlLayout.clips trail) ++ Part.following.tag (SqlLayout.clips follow)) ∧
      back = trail ++ follow ∧ (∀ t ∈ trail, t.isNewline = false) ∧ ∀ t ∈ follow.head?, t.isNewline := by
  have hall : ¬∀ t ∈ lead ++ last :: back, t.isTrivia := fun h => by
    have := h last (by simp)
    simp [Token.isCode, this] at hlast
  obtain ⟨c, hc, ec, e⟩ := exists_cut hall
  obtain ⟨t, ht, hcode⟩ := hc.core
  obtain ⟨core, hcore⟩ := List.getLast?_eq_some_iff.mp ht
  rw [← ec] at hr
  obtain ⟨e₁, e₂, e₃, e₄⟩ := Cut.clips_parts hc hr
  have hgap : SqlLayout.clips c.gap = [] := by
    rw [SqlLayout.clips, solids_eq_nil.mpr (by simpa using hc.gap), List.map_nil]
  obtain ⟨rfl, rfl, rfl⟩ := append_code_inj (show c.lead ++ (c.gap ++ (c.near ++ core)) ++ t :: (c.trail ++ c.follow) =
    lead ++ last :: back by rw [← ec]; simp [Cut.all, hcore]) hcode hlast hc.back hback
  refine ⟨c.item, Part.leading.tag (SqlLayout.clips c.lead) ++ Part.code.tag (SqlLayout.clips (c.near ++ core)),
    c.trail, c.follow, e, by simp [hgap], ?_, rfl, hc.trail, hc.follow⟩
  rw [tagged, e₁, e₂, e₃, e₄, hcore, ← List.append_assoc c.near, clips_append _ [t], clips_singleton hlast]
  simp

/-! ## Comments behind the code -/

theorem dropEndWhile_middle {p : Token → Bool} {t : Token} (ht : p t = false) (xs ys : List Token) :
    ∃ zs, dropEndWhile p (xs ++ t :: ys) = xs ++ t :: zs := by
  have hne : dropEndWhile p (t :: ys) ≠ [] := fun h => by
    have := List.rdropWhile_eq_nil_iff.mp h t (by simp)
    simp [ht] at this
  obtain ⟨u, zs, e⟩ := List.exists_cons_of_ne_nil hne
  obtain ⟨r, hr⟩ : dropEndWhile p (t :: ys) <+: t :: ys := List.rdropWhile_prefix _ _
  rw [e] at hr
  obtain rfl := (List.cons.inj hr).1
  exact ⟨zs, by rw [dropEndWhile_append hne, e]⟩

theorem isNewline_comment {c : Token} (h : c.isComment) : c.isNewline = false := by
  cases c <;> first | rfl | cases h

theorem isSpace_comment {c : Token} (h : c.isComment) : c.isSpace = false := by
  cases c <;> first | rfl | cases h

theorem lineComments_comment {near later : List Token} {c : Token}
    (hnear : ∀ t ∈ near, t.isTrivia ∧ t.isNewline = false) (hc : c.isComment)
    (hlater : ∀ t ∈ later.takeWhile fun t => !t.isNewline, t.isTrivia) :
    ∃ zs, lineComments (near ++ c :: later) = near ++ c :: zs := by
  have hsplit := List.takeWhile_append_dropWhile (p := fun t : Token => !t.isNewline) (l := later)
  have hnl : ∀ t ∈ later.takeWhile fun t => !t.isNewline, t.isNewline = false := fun t ht => by
    simpa using List.mem_takeWhile_imp ht
  have hhead := List.head?_dropWhile_not (fun t : Token => !t.isNewline) later
  generalize (later.takeWhile fun t => !t.isNewline) = line at hsplit hnl hlater
  generalize (later.dropWhile fun t => !t.isNewline) = r at hsplit hhead
  subst hsplit
  have hline : ∀ t ∈ near ++ c :: line, (t.isTrivia && !t.isNewline) = true := by
    intro t ht
    simp only [List.mem_append, List.mem_cons] at ht
    rcases ht with ht | rfl | ht
    · simp [hnear t ht]
    · simp [Token.isTrivia, hc, isNewline_comment hc]
    · simp [hlater t ht, hnl t ht]
  have e : near ++ c :: (line ++ r) = (near ++ c :: line) ++ r := by simp
  unfold lineComments
  simp only
  rw [e, List.dropWhile_append_of_pos hline]
  cases r with
  | nil => simpa using dropEndWhile_middle (isSpace_comment hc) near line
  | cons t r =>
    have ht : t.isNewline := by simpa using hhead
    rw [List.dropWhile_cons_of_neg (by simp [ht]), List.takeWhile_append_of_pos hline,
      List.takeWhile_cons_of_neg (by simp [ht])]
    simpa [ht] using dropEndWhile_middle (isSpace_comment hc) near line

/-- A comment on the line of the code is with the code in its group, and of the
tokens between the two only the comma is not. -/
theorem SharesLine.exists_near {n : Nesting} {front back rest near later : List Token} {last c : Token}
    (h : EndsItem n front last back rest) (hline : SharesLine near later) (hc : c.isComment)
    (e : back ++ rest = near ++ c :: later) : ∃ near' zs, back ++ lineComments rest.tail = near' ++ c :: zs ∧
      (∀ t ∈ near', t.isNewline = false) ∧
      withoutCommas ((front ++ [last]).foldl Nesting.step n) near = near' := by
  rcases List.append_eq_append_iff.mp e.symm with ⟨x, rfl, ex⟩ | ⟨x, rfl, ex⟩
  · cases x with
    | nil =>
      rcases h.rest with hr | ⟨hr, -⟩
      · simp [hr] at ex
      · rw [← List.nil_append rest, ← ex] at hr
        cases hr
        cases hc
    | cons u x =>
      obtain rfl := (List.cons.inj ex).1
      have hback := h.back
      exact ⟨near, x ++ lineComments rest.tail, by simp, hline.before,
        withoutCommas_trivia (fun t ht => hback t (by simp [ht])) _⟩
  · -- the comment stands behind the comma
    rcases h.rest with hr | ⟨hr, hd⟩
    · simp [hr] at ex
    cases x with
    | nil =>
      rw [ex] at hr
      cases hr
      cases hc
    | cons u x =>
      obtain rfl : u = .comma := by simpa [ex] using hr
      have hcode := hline.line
      have hb : back.filter Token.isCode = [] := List.filter_eq_nil_iff.mpr fun t ht => by simp [Token.isCode, h.back t ht]
      rw [List.append_assoc, List.filter_append, hb, List.nil_append, List.cons_append, List.filter_cons_of_pos rfl,
        List.cons_prefix_cons, List.prefix_nil, List.filter_eq_nil_iff] at hcode
      have hx : ∀ t ∈ x, t.isTrivia := fun t ht => by simpa [Token.isCode] using hcode.2 t (by simp [ht])
      have hlater : ∀ t ∈ later.takeWhile fun t => !t.isNewline, t.isTrivia := fun t ht => by
        simpa [Token.isCode] using hcode.2 t (by simp [ht])
      obtain ⟨zs, ez⟩ := lineComments_comment (fun t ht => ⟨hx t ht, hline.before t (by simp [ht])⟩) hc hlater
      refine ⟨back ++ x, zs, by rw [ex, List.cons_append, List.tail_cons, ez]; simp,
        fun t ht => hline.before t (by simp at ht ⊢; tauto), ?_⟩
      rw [withoutCommas_append, withoutCommas_trivia h.back, foldl_trivia h.back, withoutCommas, if_pos ⟨rfl, hd⟩,
        withoutCommas_trivia hx]

/-! ## Where the comments are -/

theorem tagged_listItems {ts front back rest : List Token} {last : Token} (hl : Legible ts)
    (hts : ts = front ++ last :: (back ++ rest)) (h : EndsItem {} front last back rest) :
    ∃ k pre trail follow post,
      tagged 0 (listItems ts) = pre ++ (k, .code, last) :: ((Item.Part.trailing.tag (clips trail)).map (Prod.mk k) ++
        ((Item.Part.following.tag (clips follow)).map (Prod.mk k) ++ post)) ∧
      pre.length = (clips (withoutCommas {} front)).length ∧ back ++ lineComments rest.tail = trail ++ follow ∧
      (∀ t ∈ trail, t.isNewline = false) ∧ ∀ t ∈ follow.head?, t.isNewline := by
  obtain ⟨gs, lead, gs', e, ew⟩ := commaGroups_holds h
  have hread : ∀ g ∈ commaGroups {} ts, Readable g := fun g hg => (commaGroups_readable {} hl g hg).1
  rw [hts, e] at hread
  have hback : ∀ t ∈ back ++ lineComments rest.tail, t.isTrivia := fun t ht =>
    (List.mem_append.mp ht).elim (h.back t) (lineComments_trivia _ t)
  obtain ⟨i, head, trail, follow, ei, ehead, etag, eback, htrail, hfollow⟩ :=
    Item.tagged_ofTokens? (hread (lead ++ last :: (back ++ lineComments rest.tail)) (by simp)) h.code hback
  have hlen : ∀ items : List Item, (tagged 0 items).length = (items.flatMap Item.clips).length := fun items => by
    rw [← map_tagged, List.length_map]
  refine ⟨(gs.filterMap Item.ofTokens?).length,
    tagged 0 (gs.filterMap Item.ofTokens?) ++ head.map (Prod.mk (gs.filterMap Item.ofTokens?).length), trail, follow,
    tagged ((gs.filterMap Item.ofTokens?).length + 1) (gs'.filterMap Item.ofTokens?), ?_, ?_, eback, htrail, hfollow⟩
  · rw [listItems, hts, e, List.filterMap_append, List.filterMap_cons_some ei, tagged_append, tagged, etag, Nat.zero_add]
    simp
  · rw [List.length_append, hlen, clips_items fun g hg => hread g (by simp [hg]), List.length_map, ew, clips_append,
      List.length_append, ← ehead, List.length_map]

theorem length_behind {n : Nesting} {front back rest near near' : List Token} {last : Token}
    (h : EndsItem n front last back rest)
    (hnear : withoutCommas ((front ++ [last]).foldl Nesting.step n) near = near') :
    (clips (withoutCommas n (front ++ last :: near))).length =
      (clips (withoutCommas n front)).length + ((clips near').length + 1) := by
  have e : front ++ last :: near = (front ++ [last]) ++ near := by simp
  rw [e, withoutCommas_append, withoutCommas_append, h.bare, hnear, clips_append, clips_append,
    clips_singleton h.code]
  simp only [List.length_append, List.length_singleton]
  omega

theorem clips_comment {c : Token} (h : c.isComment) (ts : List Token) : clips (c :: ts) = c.clip :: clips ts := by
  rw [clips, solids_cons, if_neg (by simp [isSpace_comment h])]
  rfl

theorem getElem?_middle {α : Type} {xs ys : List α} {x : α} {n : Nat} (h : n = xs.length) :
    (xs ++ x :: ys)[n]? = some x := by
  rw [h, List.getElem?_append_right (Nat.le_refl _), Nat.sub_self]
  rfl

theorem comment_in_trail {trail follow near zs : List Token} {c : Token} (e : trail ++ follow = near ++ c :: zs)
    (hfollow : ∀ t ∈ follow.head?, t.isNewline) (hnear : ∀ t ∈ near, t.isNewline = false) (hc : c.isComment) :
    ∃ ys, trail = near ++ c :: ys := by
  have hhead : ∀ t ∈ (near ++ [c]), t ∉ follow.head? := fun t ht h => by
    have := hfollow t h
    simp only [List.mem_append, List.mem_singleton] at ht
    rcases ht with ht | rfl
    · simp [hnear t ht] at this
    · simp [isNewline_comment hc] at this
  rcases List.append_eq_append_iff.mp e with ⟨x, rfl, ex⟩ | ⟨x, rfl, ex⟩
  · cases x with
    | nil => exact (hhead c (by simp) (by simp [ex])).elim
    | cons u x => exact (hhead u (by simp) (by simp [ex])).elim
  · cases x with
    | nil => exact (hhead c (by simp) (by rw [← List.nil_append follow, ← ex]; rfl)).elim
    | cons u x =>
      obtain rfl := (List.cons.inj ex).1
      exact ⟨x, rfl⟩

theorem comment_in_follow {trail follow far zs : List Token} {c : Token} (e : trail ++ follow = far ++ c :: zs)
    (htrail : ∀ t ∈ trail, t.isNewline = false) (hfar : ∃ t ∈ far, t.isNewline) :
    ∃ xs, far = trail ++ xs ∧ follow = xs ++ c :: zs := by
  rcases List.append_eq_append_iff.mp e with ⟨x, rfl, ex⟩ | ⟨x, rfl, ex⟩
  · exact ⟨x, rfl, ex⟩
  · obtain ⟨t, ht, hn⟩ := hfar
    have := htrail t (by simp [ht])
    rw [hn] at this
    cases this

theorem tokens_tagged (s : Text) :
    (tagged 0 (listItems (tokenize s))).map (·.2.2) = clips (withoutCommas {} (tokenize s)) := by
  have hread : ∀ g ∈ commaGroups {} (tokenize s), Readable g := fun g hg =>
    (commaGroups_readable {} (legible_tokenize s) g hg).1
  rw [map_tagged, listItems, clips_items hread, commaGroups_flatten]

/-- Each token of a list has one place in the items, in the order of the list.
Comments on the line on which the code of an item ends trail the item, and
those on later lines in front of its comma follow it. -/
theorem comments_attached {s : Text} {front back rest : List Token} {last : Token}
    (hs : tokenize s = front ++ last :: (back ++ rest)) (h : EndsItem {} front last back rest) :
    (tagged 0 (listItems (tokenize s))).map (·.2.2) = clips (withoutCommas {} (tokenize s)) ∧
    ∃ k, placeBehind (listItems (tokenize s)) front = some (k, .code, last) ∧
      (∀ near c later, back ++ rest = near ++ c :: later → c.isComment → SharesLine near later →
        placeBehind (listItems (tokenize s)) (front ++ last :: near) = some (k, .trailing, c.clip)) ∧
      ∀ far c later, back = far ++ c :: later → c.isComment → (∃ t ∈ far, t.isNewline) →
        placeBehind (listItems (tokenize s)) (front ++ last :: far) = some (k, .following, c.clip) := by
  obtain ⟨k, pre, trail, follow, post, e, hpre, eback, htrail, hfollow⟩ := tagged_listItems (legible_tokenize s) hs h
  refine ⟨tokens_tagged s, k, ?_, fun near c later en hc hline => ?_, fun far c later ef hc hbreak => ?_⟩
  · rw [placeBehind, e]
    exact getElem?_middle hpre.symm
  · obtain ⟨near', zs, ez, hbefore, hbare⟩ := hline.exists_near h hc en
    obtain ⟨ys, rfl⟩ := comment_in_trail (eback.symm.trans ez) hfollow hbefore hc
    have e' : tagged 0 (listItems (tokenize s)) =
        (pre ++ (k, .code, last) :: (Item.Part.trailing.tag (clips near')).map (Prod.mk k)) ++
        (k, .trailing, c.clip) :: ((Item.Part.trailing.tag (clips ys)).map (Prod.mk k) ++
          ((Item.Part.following.tag (clips follow)).map (Prod.mk k) ++ post)) := by
      rw [e, clips_append, clips_comment hc]
      simp
    rw [placeBehind, e', length_behind h hbare]
    exact getElem?_middle (by simp [hpre])
  · have hfar : ∀ t ∈ far, t.isTrivia := fun t ht => h.back t (by simp [ef, ht])
    obtain ⟨xs, rfl, rfl⟩ := comment_in_follow
      (show trail ++ follow = far ++ c :: (later ++ lineComments rest.tail) by rw [← eback, ef]; simp) htrail hbreak
    have e' : tagged 0 (listItems (tokenize s)) =
        (pre ++ (k, .code, last) :: ((Item.Part.trailing.tag (clips trail)).map (Prod.mk k) ++
          (Item.Part.following.tag (clips xs)).map (Prod.mk k))) ++
        (k, .following, c.clip) ::
          ((Item.Part.following.tag (clips (later ++ lineComments rest.tail))).map (Prod.mk k) ++ post) := by
      rw [e, clips_append xs, clips_comment hc]
      simp
    rw [placeBehind, e', length_behind h (withoutCommas_trivia hfar _)]
    exact getElem?_middle (by simp [hpre])

theorem comments_attached_two_lines :
    (∃ k, placeBehind (listItems (tokenize "a, -- y\nb -- x\n-- z".toList)) [.word ['a'], .comma, .whitespace [' ']] =
      some (k, .trailing, .lineComment "-- y".toList)) ∧
    ∃ k, placeBehind (listItems (tokenize "a, -- y\nb -- x\n-- z".toList))
        [.word ['a'], .comma, .whitespace [' '], .lineComment "-- y".toList, .whitespace ['\n'], .word ['b'],
          .whitespace [' ']] = some (k, .trailing, .lineComment "-- x".toList) ∧
      placeBehind (listItems (tokenize "a, -- y\nb -- x\n-- z".toList))
        [.word ['a'], .comma, .whitespace [' '], .lineComment "-- y".toList, .whitespace ['\n'], .word ['b'],
          .whitespace [' '], .lineComment "-- x".toList, .whitespace ['\n']] =
        some (k, .following, .lineComment "-- z".toList) := by
  have hs : tokenize "a, -- y\nb -- x\n-- z".toList = [] ++ .word ['a'] :: ([] ++ [.comma, .whitespace [' '],
      .lineComment "-- y".toList, .whitespace ['\n'], .word ['b'], .whitespace [' '], .lineComment "-- x".toList,
      .whitespace ['\n'], .lineComment "-- z".toList]) := by decide +kernel
  have hs' : tokenize "a, -- y\nb -- x\n-- z".toList =
      [.word ['a'], .comma, .whitespace [' '], .lineComment "-- y".toList, .whitespace ['\n']] ++ .word ['b'] ::
        ([.whitespace [' '], .lineComment "-- x".toList, .whitespace ['\n'], .lineComment "-- z".toList] ++ []) := hs
  constructor
  · obtain ⟨-, k, -, htrailing, -⟩ := comments_attached hs ⟨rfl, rfl, by simp, .inr ⟨rfl, rfl⟩⟩
    exact ⟨k, htrailing [.comma, .whitespace [' ']] _ _ rfl rfl ⟨by decide, by decide⟩⟩
  · obtain ⟨-, k, -, htrailing, hfollowing⟩ := comments_attached hs' ⟨rfl, rfl, by decide, .inl rfl⟩
    exact ⟨k, htrailing [.whitespace [' ']] _ _ rfl rfl ⟨by decide, by decide⟩,
      hfollowing [.whitespace [' '], .lineComment "-- x".toList, .whitespace ['\n']] _ _ rfl rfl (by decide)⟩

end SqlLayout

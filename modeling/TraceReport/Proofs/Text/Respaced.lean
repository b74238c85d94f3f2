import TraceReport.Proofs.Text.Words

namespace TraceReport.Text

/-- A stretch of blanks. -/
def IsGap (t : Text) : Prop := t ≠ [] ∧ ∀ c ∈ t, isBlank c = true

/-- The second text has other blanks where the first has blanks, and none elsewhere. A stretch that
is one space may stay. -/
inductive Respaced : Text → Text → Prop
  | nil : Respaced [] []
  | char {c : Char} {a b : Text} : isBlank c = false → Respaced a b → Respaced (c :: a) (c :: b)
  | gap {x y a b : Text} : IsGap x → IsGap y → (x = [' '] → y = [' ']) → Respaced a b →
      Respaced (x ++ a) (y ++ b)

/-- No blanks but spaces, and no two of them together. -/
def SingleSpaced (t : Text) : Prop :=
  (∀ c ∈ t, isBlank c = true → c = ' ') ∧ ¬[' ', ' '] <:+: t

instance (t : Text) : Decidable (SingleSpaced t) := inferInstanceAs (Decidable (_ ∧ _))

theorem isGap_singleton {c : Char} (h : isBlank c = true) : IsGap [c] :=
  ⟨List.cons_ne_nil c [], by simpa using h⟩

theorem SingleSpaced.of_infix {a b : Text} (h : SingleSpaced b) (hab : a <:+: b) :
    SingleSpaced a :=
  ⟨fun c hc => h.1 c (hab.subset hc), fun htwo => h.2 (htwo.trans hab)⟩

/-- A gap in a text with single spaces is one space. -/
theorem SingleSpaced.gap_eq {x a : Text} (h : SingleSpaced (x ++ a)) (hx : IsGap x) :
    x = [' '] := by
  have hspaces : ∀ c ∈ x, c = ' ' := fun c hc => h.1 c (List.mem_append_left a hc) (hx.2 c hc)
  match x, hx.1, hspaces with
  | [c], _, hspaces => rw [hspaces c (by simp)]
  | c :: d :: rest, _, hspaces =>
    have htwo : [' ', ' '] <:+: c :: d :: rest ++ a := by
      rw [hspaces c (by simp), hspaces d (by simp)]
      exact ⟨[], rest ++ a, rfl⟩
    exact absurd htwo h.2

section

variable {t : Text}

theorem SingleSpaced.cons {c : Char} (hc : isBlank c = false) (h : SingleSpaced t) :
    SingleSpaced (c :: t) := by
  refine ⟨fun d hd hblank => ?_, fun htwo => ?_⟩
  · rcases List.mem_cons.mp hd with rfl | hm
    · simp [hc] at hblank
    · exact h.1 d hm hblank
  · rcases List.infix_cons_iff.mp htwo with hfirst | hlater
    · obtain ⟨rfl, -⟩ := List.cons_prefix_cons.mp hfirst
      exact absurd hc (by decide)
    · exact h.2 hlater

theorem SingleSpaced.cons_space (hhead : ∀ c ∈ t.head?, isBlank c = false) (h : SingleSpaced t) :
    SingleSpaced (' ' :: t) := by
  refine ⟨fun d hd hblank => ?_, fun htwo => ?_⟩
  · rcases List.mem_cons.mp hd with rfl | hm
    · rfl
    · exact h.1 d hm hblank
  · rcases List.infix_cons_iff.mp htwo with hfirst | hlater
    · obtain ⟨-, rest, rfl⟩ := List.cons_prefix_cons.mp hfirst
      exact absurd (hhead ' ' rfl) (by decide)
    · exact h.2 hlater

theorem SingleSpaced.append {a : Text} (ha : Solid a) (h : SingleSpaced t) :
    SingleSpaced (a ++ t) := by
  induction a with
  | nil => exact h
  | cons c a ih =>
    obtain ⟨hc, hrest⟩ := solid_cons.mp ha
    exact .cons hc (ih hrest)

end

namespace Respaced

variable {a b z : Text}

theorem append {a' b' : Text} (ha : Respaced a a') (hb : Respaced b b') :
    Respaced (a ++ b) (a' ++ b') := by
  induction ha with
  | nil => exact hb
  | char hc _ ih => exact .char hc ih
  | gap hx hy hone _ ih =>
    rw [List.append_assoc, List.append_assoc]
    exact .gap hx hy hone ih

/-- More blanks before blanks. -/
theorem widen {c : Char} (hc : isBlank c = true) (hhead : ∀ d ∈ a.head?, isBlank d = true)
    (hne : a ≠ []) (h : Respaced a z) : Respaced (c :: a) z := by
  cases h with
  | nil => exact absurd rfl hne
  | @char d a b hd _ =>
    rw [hhead d rfl] at hd
    exact absurd hd (by decide)
  | @gap x y a b hx hy _ hrest =>
    have hwide : IsGap (c :: x) := ⟨List.cons_ne_nil c x, List.forall_mem_cons.mpr ⟨hc, hx.2⟩⟩
    exact .gap hwide hy (fun hone => absurd (List.cons.inj hone).2 hx.1) hrest

theorem widen_all {x : Text} (hx : ∀ c ∈ x, isBlank c = true)
    (hhead : ∀ d ∈ a.head?, isBlank d = true) (hne : a ≠ []) (h : Respaced a z) :
    Respaced (x ++ a) z := by
  induction x with
  | nil => exact h
  | cons c x ih =>
    obtain ⟨hc, hrest⟩ := List.forall_mem_cons.mp hx
    refine widen hc (fun d hd => ?_) (by simp [hne]) (ih hrest)
    cases x with
    | nil => exact hhead d hd
    | cons e x => exact hrest d (List.mem_of_head? hd)

/-- Texts with single spaces stay as they are. -/
theorem eq_of_singleSpaced (h : Respaced a z) (hsingle : SingleSpaced a) : z = a := by
  induction h with
  | nil => rfl
  | char _ _ ih => rw [ih (hsingle.of_infix (List.suffix_cons _ _).isInfix)]
  | gap hx _ hone _ ih =>
    obtain rfl := hsingle.gap_eq hx
    rw [hone rfl, ih (hsingle.of_infix (List.suffix_append _ _).isInfix)]

/-- A character that is no blank stays where it is. -/
theorem split_char {c : Char} (hc : isBlank c = false) (h : Respaced (a ++ c :: b) z) :
    ∃ a' b', z = a' ++ c :: b' ∧ Respaced a a' ∧ Respaced b b' := by
  generalize hwhole : a ++ c :: b = whole at h
  induction h generalizing a with
  | nil => simp at hwhole
  | @char d t z hd hrest ih =>
    cases a with
    | nil =>
      obtain ⟨rfl, rfl⟩ := List.cons.inj hwhole
      exact ⟨[], z, rfl, .nil, hrest⟩
    | cons e a =>
      obtain ⟨rfl, htail⟩ := List.cons.inj hwhole
      obtain ⟨a', b', rfl, ha, hb⟩ := ih htail
      exact ⟨e :: a', b', rfl, .char hd ha, hb⟩
  | @gap x y t z hx hy hone hrest ih =>
    rcases List.append_eq_append_iff.mp hwhole with ⟨mid, hxa, hcb⟩ | ⟨mid, rfl, hcb⟩
    · cases mid with
      | nil =>
        obtain ⟨a', b', rfl, ha, hb⟩ := ih (a := []) hcb
        refine ⟨y ++ a', b', by simp, ?_, hb⟩
        have hgap := Respaced.gap hx hy hone ha
        rwa [List.append_nil, hxa, List.append_nil] at hgap
      | cons d mid =>
        obtain ⟨rfl, -⟩ := List.cons.inj hcb
        have hblank := hx.2 c (by simp [hxa])
        rw [hc] at hblank
        exact absurd hblank (by decide)
    · obtain ⟨a', b', rfl, ha, hb⟩ := ih hcb.symm
      exact ⟨y ++ a', b', by simp, .gap hx hy hone ha, hb⟩

/-- A text that ends with no blank is respaced by itself. -/
theorem split (hlast : ∀ c ∈ a.getLast?, isBlank c = false) (hne : a ≠ [])
    (h : Respaced (a ++ b) z) : ∃ a' b', z = a' ++ b' ∧ Respaced a a' ∧ Respaced b b' := by
  obtain ⟨front, c, rfl⟩ := List.eq_nil_or_concat a |>.resolve_left hne
  have hc : isBlank c = false := hlast c (by simp)
  rw [List.concat_eq_append, List.append_assoc, List.singleton_append] at h
  obtain ⟨front', b', rfl, hfront, hb⟩ := split_char hc h
  refine ⟨front' ++ [c], b', by simp, ?_, hb⟩
  rw [List.concat_eq_append]
  exact hfront.append (.char hc .nil)

end Respaced

section Squeeze

variable {p : Char → Bool}

/-- The stretches between some characters, with one space between them. -/
def squeeze (p : Char → Bool) (t : Text) : Text :=
  joinWith [' '] ((t.splitOnP p).filter fun w => !w.isEmpty)

theorem exists_mem_splitOnP {c : Char} (hc : p c = false) {t : Text} (hm : c ∈ t) :
    ∃ w ∈ t.splitOnP p, c ∈ w := by
  induction t with
  | nil => simp at hm
  | cons d t ih =>
    obtain ⟨w, ws, hparts⟩ := List.exists_cons_of_ne_nil (List.splitOnP_ne_nil p t)
    rw [List.splitOnP_cons_eq_if_modifyHead, hparts]
    rw [hparts] at ih
    rcases List.mem_cons.mp hm with rfl | hlater
    · exact ⟨c :: w, by simp [hc], by simp⟩
    · obtain ⟨v, hv, hcv⟩ := ih hlater
      cases p d with
      | true => exact ⟨v, List.mem_cons_of_mem _ hv, hcv⟩
      | false =>
        rcases List.mem_cons.mp hv with rfl | hrest
        · exact ⟨d :: v, by simp, List.mem_cons_of_mem d hcv⟩
        · exact ⟨v, List.mem_cons_of_mem _ hrest, hcv⟩

theorem filter_splitOnP_ne_nil {c : Char} (hc : p c = false) {t : Text} (hm : c ∈ t) :
    (t.splitOnP p).filter (fun w => !w.isEmpty) ≠ [] := by
  obtain ⟨w, hw, hin⟩ := exists_mem_splitOnP hc hm
  exact List.ne_nil_of_mem (List.mem_filter.mpr ⟨hw, by simp [List.ne_nil_of_mem hin]⟩)

theorem squeeze_cons_mark {c : Char} (hc : p c = true) (t : Text) :
    squeeze p (c :: t) = squeeze p t := by
  rw [squeeze, squeeze, List.splitOnP_cons_eq_if_modifyHead, hc, if_pos rfl]
  simp

/-- The space for a first gap. -/
def lead (p : Char → Bool) (t : Text) : Text := if t.head?.any p then [' '] else []

theorem squeeze_cons {c : Char} (hc : p c = false) {t : Text}
    (hlast : ∀ d ∈ t.getLast?, p d = false) :
    squeeze p (c :: t) = c :: (lead p t ++ squeeze p t) := by
  cases t with
  | nil => simp [squeeze, lead, List.splitOnP_cons_eq_if_modifyHead, hc, joinWith]
  | cons d t =>
    obtain ⟨w, ws, hparts⟩ := List.exists_cons_of_ne_nil (List.splitOnP_ne_nil p t)
    cases hd : p d with
    | true =>
      have ht : t ≠ [] := by
        rintro rfl
        simp [hd] at hlast
      have hend : p (t.getLast ht) = false :=
        hlast _ (by rw [List.getLast?_cons, List.getLast?_eq_some_getLast ht]; rfl)
      obtain ⟨v, vs, hkept⟩ := List.exists_cons_of_ne_nil
        (filter_splitOnP_ne_nil hend (List.getLast_mem ht))
      have hfirst : (List.splitOnP p (c :: d :: t)).filter (fun w => !w.isEmpty) =
          [c] :: v :: vs := by
        simp [List.splitOnP_cons_eq_if_modifyHead, hc, hd, hkept]
      rw [squeeze_cons_mark hd, squeeze, squeeze, hfirst, hkept, joinWith_cons_cons]
      simp [lead, hd]
    | false =>
      have hopen : lead p (d :: t) = [] := by simp [lead, hd]
      rw [hopen, List.nil_append, squeeze, squeeze]
      simp only [List.splitOnP_cons_eq_if_modifyHead, hc, hd, hparts, Bool.false_eq_true, if_false,
        List.modifyHead_cons, List.filter_cons, List.isEmpty_cons, Bool.not_false, if_true]
      cases ws.filter fun w => !w.isEmpty with
      | nil => rw [joinWith_singleton, joinWith_singleton]
      | cons v vs => rw [joinWith_cons_cons, joinWith_cons_cons, List.cons_append]

/-- Squeezing respaces a text, but for the gap that it may begin with. -/
theorem respaced_squeeze (hp : ∀ c, p c = true → isBlank c = true) {t : Text}
    (hlast : ∀ c ∈ t.getLast?, p c = false) : Respaced t (lead p t ++ squeeze p t) := by
  induction t with
  | nil => exact .nil
  | cons c t ih =>
    have hlater : ∀ d ∈ t.getLast?, p d = false := fun d hd =>
      hlast d (by rw [List.getLast?_cons, hd]; rfl)
    have hrest := ih hlater
    cases hc : p c with
    | true =>
      have hblank := hp c hc
      rw [squeeze_cons_mark hc]
      have hspace : lead p (c :: t) = [' '] := by simp [lead, hc]
      rw [hspace]
      cases ht : t.head?.any p with
      | true =>
        rw [lead, if_pos ht] at hrest
        cases t with
        | nil => simp at ht
        | cons d t =>
          refine hrest.widen hblank (fun e he => ?_) (List.cons_ne_nil d t)
          obtain rfl := Option.some.inj he
          exact hp d ht
      | false =>
        rw [lead, ht] at hrest
        exact .gap (isGap_singleton hblank) (isGap_singleton rfl) (fun _ => rfl) hrest
    | false =>
      have hopen : lead p (c :: t) = [] := by simp [lead, hc]
      rw [hopen, squeeze_cons hc hlater, List.nil_append]
      cases hblank : isBlank c with
      | true => exact .gap (isGap_singleton hblank) (isGap_singleton hblank) id hrest
      | false => exact .char hblank hrest

end Squeeze

end TraceReport.Text

import Mathlib.Data.List.DropRight
import Mathlib.Data.List.Infix
import TraceReport.Text.Basic

namespace TraceReport.Text

theorem splitWhen_eq_splitOnP (p : Char → Bool) (t : Text) : splitWhen p t = t.splitOnP p := by
  induction t with
  | nil => rw [List.splitOnP_nil, splitWhen, List.foldr_nil]
  | cons c rest ih =>
    obtain ⟨w, ws, hparts⟩ := List.exists_cons_of_ne_nil (List.splitOnP_ne_nil p rest)
    rw [hparts, splitWhen] at ih
    rw [List.splitOnP_cons_eq_if_modifyHead, hparts, List.modifyHead_cons, splitWhen,
      List.foldr_cons, ih]

theorem splitAt_eq_splitOn (mark : Char) (t : Text) : splitAt mark t = t.splitOn mark :=
  splitWhen_eq_splitOnP _ t

/-- What stands between marks stands in the text; the first stretch begins it. -/
theorem infix_of_mem_splitOnP {p : Char → Bool} {t w : Text} (h : w ∈ t.splitOnP p) : w <:+: t := by
  suffices hparts : ∃ head rest, t.splitOnP p = head :: rest ∧ head <+: t ∧ ∀ w ∈ rest, w <:+: t by
    obtain ⟨head, rest, heq, hhead, hrest⟩ := hparts
    rw [heq] at h
    rcases List.mem_cons.mp h with rfl | hm
    · exact hhead.isInfix
    · exact hrest w hm
  clear h
  induction t with
  | nil => exact ⟨[], [], List.splitOnP_nil, List.nil_prefix, by simp⟩
  | cons c t ih =>
    obtain ⟨head, rest, heq, hhead, hrest⟩ := ih
    rw [List.splitOnP_cons_eq_if_modifyHead, heq]
    cases hc : p c with
    | true =>
      refine ⟨[], head :: rest, rfl, List.nil_prefix, fun w hw => ?_⟩
      rcases List.mem_cons.mp hw with rfl | hm
      · exact List.infix_cons hhead.isInfix
      · exact List.infix_cons (hrest w hm)
    | false =>
      exact ⟨c :: head, rest, rfl, List.cons_prefix_cons.mpr ⟨rfl, hhead⟩,
        fun w hw => List.infix_cons (hrest w hw)⟩

/-- Splitting two texts that are joined: the last stretch of the one goes on with the first of the
other. -/
theorem splitOnP_append (p : Char → Bool) (a b : Text) :
    ∃ before last first after, a.splitOnP p = before ++ [last] ∧ b.splitOnP p = first :: after ∧
      (a ++ b).splitOnP p = before ++ (last ++ first) :: after := by
  obtain ⟨first, after, hb⟩ := List.exists_cons_of_ne_nil (List.splitOnP_ne_nil p b)
  induction a with
  | nil => exact ⟨[], [], first, after, by simp, hb, by simpa using hb⟩
  | cons c a ih =>
    obtain ⟨before, last, first', after', ha, hb', hab⟩ := ih
    rw [List.cons_append, List.splitOnP_cons_eq_if_modifyHead, ha,
      List.splitOnP_cons_eq_if_modifyHead, hab]
    cases hc : p c with
    | true => exact ⟨[] :: before, last, first', after', rfl, hb', rfl⟩
    | false =>
      cases before with
      | nil => exact ⟨[], c :: last, first', after', rfl, hb', rfl⟩
      | cons w ws => exact ⟨(c :: w) :: ws, last, first', after', rfl, hb', rfl⟩

/-- The first stretch of a text that begins with no separator. -/
theorem exists_splitOnP_cons {p : Char → Bool} {c : Char} (hc : p c = false) (t : Text) :
    ∃ w ws, (c :: t).splitOnP p = (c :: w) :: ws ∧ ∀ d ∈ c :: w, p d = false := by
  have hfirst : ∀ d ∈ c :: t.takeWhile fun d => !p d, p d = false := by
    refine List.forall_mem_cons.mpr ⟨hc, fun d hd => ?_⟩
    simpa using List.mem_takeWhile_imp hd
  have hsplit := List.takeWhile_append_dropWhile (p := fun d => !p d) (l := t)
  cases hrest : t.dropWhile fun d => !p d with
  | nil =>
    rw [hrest, List.append_nil] at hsplit
    refine ⟨_, [], ?_, hfirst⟩
    rw [hsplit] at hfirst ⊢
    exact List.splitOnP_eq_singleton hfirst
  | cons d rest =>
    have hd : p d = true := by
      have hhead := List.head?_dropWhile_not (fun d => !p d) t
      rw [hrest] at hhead
      simpa using hhead
    refine ⟨_, rest.splitOnP p, ?_, hfirst⟩
    rw [hrest] at hsplit
    conv_lhs => rw [← hsplit, ← List.cons_append, List.splitOnP_append_cons _ _ hd,
      List.splitOnP_eq_singleton hfirst]
    rfl

/-- A text is mentioned where it stands. -/
theorem mentions_iff_infix {t sought : Text} : t.mentions sought = true ↔ sought <:+: t := by
  induction t with
  | nil => rw [mentions, List.isEmpty_iff, List.infix_nil]
  | cons c rest ih =>
    rw [mentions, Bool.or_eq_true, ih, List.isPrefixOf_iff_prefix, List.infix_cons_iff]

theorem dropEndWhile_sublist (p : Char → Bool) (t : Text) : (dropEndWhile p t).Sublist t :=
  (List.rdropWhile_prefix p t).sublist

theorem trim_infix (t : Text) : trim t <:+: t :=
  (List.rdropWhile_prefix isBlank (trimStart t)).isInfix.trans
    (List.dropWhile_suffix isBlank).isInfix

/-- What stands at the beginning of joined texts and shares nothing with the second stands at the
beginning of the first. -/
theorem prefix_of_prefix_append {sought a b : Text} (hb : ∀ c ∈ b, c ∉ sought)
    (h : sought <+: a ++ b) : sought <+: a := by
  induction a generalizing sought with
  | nil =>
    cases sought with
    | nil => exact List.nil_prefix
    | cons c rest => exact absurd List.mem_cons_self (hb c (h.subset List.mem_cons_self))
  | cons c a ih =>
    cases sought with
    | nil => exact List.nil_prefix
    | cons d rest =>
      obtain ⟨rfl, hrest⟩ := List.cons_prefix_cons.mp h
      exact List.cons_prefix_cons.mpr
        ⟨rfl, ih (fun e he hm => hb e he (List.mem_cons_of_mem _ hm)) hrest⟩

theorem infix_of_infix_append {sought a b : Text} (hb : ∀ c ∈ b, c ∉ sought)
    (h : sought <:+: a ++ b) : sought <:+: a := by
  induction a with
  | nil =>
    cases sought with
    | nil => exact List.nil_infix
    | cons c rest => exact absurd List.mem_cons_self (hb c (h.subset List.mem_cons_self))
  | cons c a ih =>
    rcases List.infix_cons_iff.mp h with hfirst | hlater
    · exact (prefix_of_prefix_append (a := c :: a) hb hfirst).isInfix
    · exact List.infix_cons (ih hlater)

/-- What is dropped from the end of a text. -/
theorem exists_append_dropEndWhile (p : Char → Bool) (t : Text) :
    ∃ dropped, t = dropEndWhile p t ++ dropped ∧ ∀ c ∈ dropped, p c = true := by
  refine ⟨(t.reverse.takeWhile p).reverse, ?_, fun c hc => ?_⟩
  · rw [dropEndWhile, ← List.reverse_append, List.takeWhile_append_dropWhile, List.reverse_reverse]
  · exact List.mem_takeWhile_imp (List.mem_reverse.mp hc)

theorem getLast?_dropEndWhile (p : Char → Bool) (t : Text) :
    ∀ c ∈ (dropEndWhile p t).getLast?, p c = false := by
  intro c hc
  have hne : t.rdropWhile p ≠ [] := by
    intro hnil
    rw [dropEndWhile, ← List.rdropWhile, hnil] at hc
    simp at hc
  have hlast := List.rdropWhile_last_not p t hne
  rw [dropEndWhile, ← List.rdropWhile, List.getLast?_eq_some_getLast hne] at hc
  rw [← Option.some.inj hc]
  exact Bool.eq_false_iff.mpr hlast

theorem dropEndWhile_append (p : Char → Bool) (a b : Text) :
    dropEndWhile p (a ++ b) =
      if (dropEndWhile p b).isEmpty then dropEndWhile p a else a ++ dropEndWhile p b := by
  simp only [dropEndWhile, List.reverse_append, List.dropWhile_append, List.isEmpty_reverse]
  split
  · rfl
  · rw [List.reverse_append, List.reverse_reverse]

theorem dropEndWhile_of_forall {p : Char → Bool} {t : Text} (h : ∀ c ∈ t, p c = true) :
    dropEndWhile p t = [] :=
  List.rdropWhile_eq_nil_iff.mpr h

theorem dropEndWhile_of_getLast? {p : Char → Bool} {t : Text}
    (h : ∀ c ∈ t.getLast?, p c = false) : dropEndWhile p t = t := by
  refine List.rdropWhile_eq_self_iff.mpr fun hne => ?_
  simpa using h _ (List.getLast?_eq_some_getLast hne)

/-- What is dropped from the end of a text reaches no further back than a character that stays. -/
theorem dropEndWhile_append_cons {p : Char → Bool} {c : Char} (hc : p c = false) (a b : Text) :
    dropEndWhile p (a ++ c :: b) = a ++ c :: dropEndWhile p b := by
  have hend : dropEndWhile p (c :: b) = c :: dropEndWhile p b := by
    have hone : dropEndWhile p [c] = [c] :=
      dropEndWhile_of_getLast? fun d hd => Option.some.inj hd ▸ hc
    have happend := dropEndWhile_append p [c] b
    rw [hone, List.singleton_append] at happend
    rw [happend]
    split
    case isTrue hempty => rw [List.isEmpty_iff.mp hempty]
    case isFalse => rfl
  rw [dropEndWhile_append, hend]
  exact if_neg (by simp)

section Deciding

variable {p : Char → Prop} [DecidablePred p]

instance (priority := high) decidableForallMem (t : Text) : Decidable (∀ c ∈ t, p c) :=
  List.decidableBAll p t

instance (priority := high) decidableForallMemOption (c? : Option Char) :
    Decidable (∀ c ∈ c?, p c) :=
  Option.decidableForallMem c?

end Deciding

/-- A text without blanks. -/
def Solid (t : Text) : Prop := ∀ c ∈ t, isBlank c = false

instance (t : Text) : Decidable (Solid t) :=
  inferInstanceAs (Decidable (∀ c ∈ t, isBlank c = false))

@[simp] theorem solid_nil : Solid [] := by simp [Solid]

@[simp] theorem solid_cons {c : Char} {t : Text} :
    Solid (c :: t) ↔ isBlank c = false ∧ Solid t := by
  simp [Solid]

@[simp] theorem solid_append {a b : Text} : Solid (a ++ b) ↔ Solid a ∧ Solid b := by
  simp [Solid, or_imp, forall_and]

/-- A text that neither begins nor ends with a blank. -/
def Trimmed (t : Text) : Prop :=
  (∀ c ∈ t.head?, isBlank c = false) ∧ ∀ c ∈ t.getLast?, isBlank c = false

instance (t : Text) : Decidable (Trimmed t) := inferInstanceAs (Decidable (_ ∧ _))

theorem Solid.trimmed {t : Text} (h : Solid t) : Trimmed t :=
  ⟨fun c hc => h c (List.mem_of_head? hc), fun c hc => h c (List.mem_of_getLast? hc)⟩

theorem trimStart_of_head? {t : Text} (h : ∀ c ∈ t.head?, isBlank c = false) : trimStart t = t := by
  cases t with
  | nil => rfl
  | cons c rest => exact List.dropWhile_cons_of_neg (by simp [h c rfl])

theorem trim_of_trimmed {t : Text} (h : Trimmed t) : trim t = t := by
  rw [trim, trimStart_of_head? h.1]
  exact dropEndWhile_of_getLast? h.2

theorem trimmed_quoted (t : Text) : Trimmed ('"' :: t ++ ['"']) := by
  rw [Trimmed, List.cons_append, List.head?_cons, ← List.cons_append, List.getLast?_concat]
  decide

theorem trim_of_solid {t : Text} (h : Solid t) : trim t = t := trim_of_trimmed h.trimmed

theorem trim_append_blanks {x : Text} (hx : ∀ c ∈ x, isBlank c = true) (t : Text) :
    trim (t ++ x) = trim t := by
  have hdropped : x.dropWhile isBlank = [] := List.dropWhile_eq_nil_iff.mpr hx
  rw [trim, trim, trimStart, trimStart, List.dropWhile_append, hdropped]
  split
  case isTrue hempty => rw [List.isEmpty_iff.mp hempty]
  case isFalse =>
    rw [trimEnd, trimEnd, dropEndWhile_append, dropEndWhile_of_forall hx, List.isEmpty_nil,
      if_pos rfl]

/-- Before a last character that is no blank, blanks are dropped from the start alone. -/
theorem trim_concat {c : Char} (hc : isBlank c = false) (t : Text) :
    trim (t ++ [c]) = trimStart t ++ [c] := by
  have hstart : trimStart (t ++ [c]) = trimStart t ++ [c] := by
    rw [trimStart, trimStart, List.dropWhile_append]
    split
    case isTrue hempty =>
      rw [List.isEmpty_iff.mp hempty, List.dropWhile_cons_of_neg (by simp [hc]), List.nil_append]
    case isFalse => rfl
  rw [trim, hstart]
  apply dropEndWhile_of_getLast?
  intro d hd
  rw [List.getLast?_concat] at hd
  exact Option.some.inj hd ▸ hc

theorem head?_trimStart (t : Text) : ∀ c ∈ (trimStart t).head?, isBlank c = false := by
  intro c hc
  have hfirst := List.head?_dropWhile_not isBlank t
  rw [trimStart] at hc
  rw [Option.mem_def.mp hc] at hfirst
  exact hfirst

theorem trimmed_trim (t : Text) : Trimmed (trim t) := by
  refine ⟨fun c hc => ?_, getLast?_dropEndWhile isBlank (trimStart t)⟩
  obtain ⟨dropped, hsplit, -⟩ := exists_append_dropEndWhile isBlank (trimStart t)
  apply head?_trimStart t
  rw [hsplit, List.head?_append, ← trimEnd, ← trim, hc]
  rfl

theorem trim_cons_blank {c : Char} (hc : isBlank c = true) (t : Text) : trim (c :: t) = trim t := by
  rw [trim, trim, trimStart, trimStart, List.dropWhile_cons_of_pos hc]

theorem trim_blanks_append {x : Text} (hx : ∀ c ∈ x, isBlank c = true) (t : Text) :
    trim (x ++ t) = trim t := by
  induction x with
  | nil => rfl
  | cons c x ih =>
    rw [List.forall_mem_cons] at hx
    rw [List.cons_append, trim_cons_blank hx.1, ih hx.2]

theorem trim_trimStart (t : Text) : trim (trimStart t) = trim t := by
  rw [trim, trim, trimStart_of_head? (head?_trimStart t)]

theorem trim_trimEnd (t : Text) : trim (trimEnd t) = trim t := by
  obtain ⟨dropped, ht, hdropped⟩ := exists_append_dropEndWhile isBlank t
  conv_rhs => rw [ht, trim_append_blanks hdropped]
  rfl

theorem trimEnd_append_cons {c : Char} (hc : isBlank c = false) (a b : Text) :
    trimEnd (a ++ c :: b) = a ++ c :: trimEnd b :=
  dropEndWhile_append_cons hc a b

/-- After a character that is no blank, blanks are dropped from the end alone. -/
theorem trim_append_cons {a : Text} (ha : ∀ d ∈ a.head?, isBlank d = false) {c : Char}
    (hc : isBlank c = false) (b : Text) : trim (a ++ c :: b) = a ++ c :: trimEnd b := by
  have hhead : ∀ d ∈ (a ++ c :: b).head?, isBlank d = false := by
    cases a with
    | nil => simpa using hc
    | cons e a => exact ha
  rw [trim, trimStart_of_head? hhead, trimEnd_append_cons hc]

theorem cut?_append {mark : Char} {a : Text} (ha : mark ∉ a) (b : Text) :
    cut? mark (a ++ mark :: b) = some (a, b) := by
  induction a with
  | nil => simp [cut?]
  | cons c a ih =>
    simp only [List.mem_cons, not_or] at ha
    simp [cut?, Ne.symm ha.1, ih ha.2]

theorem cut?_of_not_mem {mark : Char} {t : Text} (h : mark ∉ t) : cut? mark t = none := by
  induction t with
  | nil => rfl
  | cons c t ih =>
    rw [List.mem_cons, not_or] at h
    rw [cut?, if_neg (Ne.symm h.1), ih h.2]
    rfl

/-- A text is cut at the first mark in it. -/
theorem eq_append_of_cut? {mark : Char} {t a b : Text} (h : cut? mark t = some (a, b)) :
    t = a ++ mark :: b ∧ mark ∉ a := by
  induction t generalizing a with
  | nil => simp [cut?] at h
  | cons c t ih =>
    rw [cut?] at h
    split at h
    case isTrue hc =>
      cases h
      exact ⟨hc ▸ rfl, List.not_mem_nil⟩
    case isFalse hc =>
      obtain ⟨⟨front, back⟩, hcut, heq⟩ := Option.map_eq_some_iff.mp h
      cases heq
      obtain ⟨ht, hfront⟩ := ih hcut
      exact ⟨congrArg (c :: ·) ht, List.not_mem_cons_of_ne_of_not_mem (Ne.symm hc) hfront⟩

/-- Quotes come off only where they stand at both ends. -/
theorem unquote_of_getLast? {t : Text} (h : t.getLast? ≠ some '"') : unquote t = t := by
  unfold unquote
  split
  case h_1 rest =>
    refine if_neg fun hrest => h ?_
    rw [List.getLast?_cons, hrest]
    rfl
  case h_2 => rfl

theorem length_unquote_le (t : Text) : (unquote t).length ≤ t.length := by
  unfold unquote
  split
  case h_1 rest =>
    split
    · rw [List.length_dropLast, List.length_cons]
      omega
    · exact le_refl _
  case h_2 => exact le_refl _

/-- A word has characters, none of them blank. -/
def IsWord (t : Text) : Prop := t ≠ [] ∧ Solid t

instance (t : Text) : Decidable (IsWord t) := inferInstanceAs (Decidable (t ≠ [] ∧ Solid t))

theorem words_eq (t : Text) : words t = (t.splitOnP isBlank).filter fun w => !w.isEmpty := by
  rw [words, splitWhen_eq_splitOnP]

/-- A blank parts the words before it from those after it. -/
theorem words_append_blank {c : Char} (hc : isBlank c = true) (a b : Text) :
    words (a ++ c :: b) = words a ++ words b := by
  rw [words_eq, words_eq, words_eq, List.splitOnP_append_cons a b hc, List.filter_append]

theorem words_of_isWord {w : Text} (h : IsWord w) : words w = [w] := by
  rw [words_eq, List.splitOnP_eq_singleton h.2]
  simp [h.1]

theorem joinWith_cons (sep w : Text) {vs : List Text} (h : vs ≠ []) :
    joinWith sep (w :: vs) = w ++ sep ++ joinWith sep vs := by
  obtain ⟨v, rest, rfl⟩ := List.exists_cons_of_ne_nil h
  simp [joinWith, List.intercalate_cons_cons]

theorem joinWith_cons_cons (mark : Char) (w v : Text) (vs : List Text) :
    joinWith [mark] (w :: v :: vs) = w ++ mark :: joinWith [mark] (v :: vs) := by
  rw [joinWith_cons [mark] w (List.cons_ne_nil v vs), List.append_assoc, List.singleton_append]

@[simp] theorem joinWith_singleton (sep w : Text) : joinWith sep [w] = w := by simp [joinWith]

theorem joinWith_append (mark : Char) {vs ws : List Text} (hv : vs ≠ []) (hw : ws ≠ []) :
    joinWith [mark] (vs ++ ws) = joinWith [mark] vs ++ mark :: joinWith [mark] ws := by
  obtain ⟨w, later, rfl⟩ := List.exists_cons_of_ne_nil hw
  induction vs with
  | nil => exact absurd rfl hv
  | cons v rest ih =>
    cases rest with
    | nil => rw [List.singleton_append, joinWith_cons_cons, joinWith_singleton]
    | cons u us =>
      have htail := ih (List.cons_ne_nil u us)
      rw [List.cons_append] at htail
      rw [List.cons_append, List.cons_append, joinWith_cons_cons, htail, joinWith_cons_cons,
        List.append_assoc, List.cons_append]

/-- Words written with one space between them are read again. -/
theorem words_joinWith {ws : List Text} (h : ∀ w ∈ ws, IsWord w) :
    words (joinWith [' '] ws) = ws := by
  induction ws with
  | nil => rfl
  | cons w rest ih =>
    have hw := words_of_isWord (h w (by simp))
    have hrest := ih fun v hv => h v (List.mem_cons_of_mem _ hv)
    cases rest with
    | nil => rw [joinWith_singleton, hw]
    | cons v vs =>
      rw [joinWith_cons_cons, words_append_blank (by decide), hw, hrest, List.singleton_append]

/-- Text of words with one space between them has no blanks but spaces. -/
theorem eq_space_of_mem_joinWith {ws : List Text} (h : ∀ w ∈ ws, IsWord w) {c : Char}
    (hm : c ∈ joinWith [' '] ws) (hc : isBlank c = true) : c = ' ' := by
  induction ws with
  | nil => simp [joinWith] at hm
  | cons w rest ih =>
    have hw : c ∉ w := fun hin => by simpa [hc] using (h w (by simp)).2 c hin
    cases rest with
    | nil =>
      rw [joinWith_singleton] at hm
      exact absurd hm hw
    | cons v vs =>
      rw [joinWith_cons_cons, List.mem_append, List.mem_cons] at hm
      rcases hm with hin | hspace | hlater
      · exact absurd hin hw
      · exact hspace
      · exact ih (fun u hu => h u (List.mem_cons_of_mem _ hu)) hlater

end TraceReport.Text

import Mathlib.Data.List.Forall2
import Mathlib.Data.List.Intervals
import Mathlib.Data.Set.List
import TraceReport.Host
import TraceReport.Proofs.Numeral

namespace TraceReport

/-- A run of readings succeeds when each of them does. -/
theorem mapM_eq_ok_iff {ε α β : Type} {f : α → Except ε β} {as : List α} {bs : List β} :
    as.mapM f = .ok bs ↔ List.Forall₂ (fun a b => f a = .ok b) as bs := by
  induction as generalizing bs with
  | nil => simp [pure, Except.pure, eq_comm]
  | cons a as ih =>
    simp only [List.mapM_cons, bind_eq_ok_iff, ih, List.forall₂_cons_left_iff]
    simp [pure, Except.pure, eq_comm]

namespace Text

/-- What a text leaves when blanks are taken off its ends, some of them or all. -/
def Framed (w t : Text) : Prop :=
  ∃ x y : Text, (∀ c ∈ x, isBlank c = true) ∧ (∀ c ∈ y, isBlank c = true) ∧ t = x ++ w ++ y

theorem framed_trim (t : Text) : Framed (trim t) t := by
  obtain ⟨behind, hback, hbehind⟩ := exists_append_dropEndWhile isBlank (trimStart t)
  refine ⟨t.takeWhile isBlank, behind, fun c hc => List.mem_takeWhile_imp hc, hbehind, ?_⟩
  calc t = t.takeWhile isBlank ++ trimStart t := List.takeWhile_append_dropWhile.symm
    _ = t.takeWhile isBlank ++ (trim t ++ behind) := congrArg _ hback
    _ = t.takeWhile isBlank ++ trim t ++ behind := (List.append_assoc ..).symm

theorem Framed.trim_eq {w t : Text} (h : Framed w t) : trim t = trim w := by
  obtain ⟨x, y, hx, hy, rfl⟩ := h
  rw [trim_append_blanks hy, trim_blanks_append hx]

/-- Marks that are no blanks part a framed text as they part what it frames: only the first and the
last stretch have more blanks. -/
theorem Framed.splitOnP {p : Char → Bool} (hp : ∀ c, isBlank c = true → p c = false) {w t : Text}
    (h : Framed w t) : List.Forall₂ Framed (w.splitOnP p) (t.splitOnP p) := by
  have hrefl : Std.Refl Framed := ⟨fun a => ⟨[], [], by simp, by simp, by simp⟩⟩
  have hwhole {a : Text} (ha : ∀ c ∈ a, isBlank c = true) : a.splitOnP p = [a] :=
    List.splitOnP_eq_singleton fun c hc => hp c (ha c hc)
  obtain ⟨x, y, hx, hy, rfl⟩ := h
  obtain ⟨before, last, first, after, hw, hback, hwy⟩ := splitOnP_append p w y
  obtain ⟨before', last', first', after', hfront, hwy', hall⟩ := splitOnP_append p x (w ++ y)
  obtain ⟨rfl, rfl⟩ := List.cons.inj ((hwhole hy).symm.trans hback)
  have hlast : before' = [] ∧ last' = x := by
    simpa [List.singleton_eq_append_iff] using (hwhole hx).symm.trans hfront
  rw [List.append_assoc, hall, hw, hlast.1, hlast.2]
  rw [hwy] at hwy'
  cases before with
  | nil =>
    obtain ⟨rfl, rfl⟩ := List.cons.inj hwy'
    exact .cons ⟨x, y, hx, hy, by simp⟩ .nil
  | cons b bs =>
    obtain ⟨rfl, rfl⟩ := List.cons.inj hwy'
    exact .cons ⟨x, [], hx, by simp, by simp⟩
      (List.rel_append (List.forall₂_refl bs) (.cons ⟨[], y, by simp, hy, by simp⟩ .nil))

end Text

namespace Host

/-- A core as a list writes it: a number of 32 bits in digits, maybe after a plus sign, with any
blanks around it. -/
structure Written where
  before : Text
  plus : Bool
  digits : Text
  behind : Text
  before_blank : ∀ c ∈ before, Text.isBlank c = true
  behind_blank : ∀ c ∈ behind, Text.isBlank c = true
  isDigits : Json.Digits digits
  fits : Nat.ofDigitChars 10 digits 0 < 2 ^ 32

namespace Written

variable (w : Written)

def literal : Text := if w.plus then '+' :: w.digits else w.digits

def text : Text := w.before ++ w.literal ++ w.behind

def core : Core := Nat.ofDigitChars 10 w.digits 0

theorem solid_literal : Text.Solid w.literal := by
  unfold literal
  split
  · exact Text.solid_cons.mpr ⟨by decide, w.isDigits.isWord.2⟩
  · exact w.isDigits.isWord.2

theorem framed : Text.Framed w.literal w.text :=
  ⟨w.before, w.behind, w.before_blank, w.behind_blank, rfl⟩

/-- No mark of a list stands in a number. -/
theorem not_mem {mark : Char} (hblank : Text.isBlank mark = false) (hdigit : mark.isDigit = false)
    (hplus : mark ≠ '+') : mark ∉ w.text := by
  have hbefore : mark ∉ w.before := fun h => by simp [w.before_blank mark h] at hblank
  have hbehind : mark ∉ w.behind := fun h => by simp [w.behind_blank mark h] at hblank
  have hdigits : mark ∉ w.digits := fun h => by simp [w.isDigits.digit mark h] at hdigit
  have hliteral : mark ∉ w.literal := by
    unfold literal
    split
    · exact List.not_mem_cons_of_ne_of_not_mem hplus hdigits
    · exact hdigits
  simp [text, hbefore, hliteral, hbehind]

theorem no_dash : '-' ∉ w.text := w.not_mem (by decide) (by decide) (by decide)

theorem no_comma : ',' ∉ w.text := w.not_mem (by decide) (by decide) (by decide)

end Written

theorem coreNumber_eq_ok_iff {t : Text} {core : Core} :
    coreNumber t = .ok core ↔ ∃ w : Written, w.text = t ∧ w.core = core := by
  have hlimit (n : Nat) : n ≤ Numeral.maxWord32 ↔ n < 2 ^ 32 := by
    simp [Numeral.maxWord32, UInt32.size, Nat.lt_iff_le_pred]
  constructor
  · intro h
    obtain ⟨digits, hdigits, hliteral, hcore, hle⟩ := Numeral.natural_eq_ok_iff.mp h
    obtain ⟨before, behind, hbefore, hbehind, ht⟩ := Text.framed_trim t
    have hfits : Nat.ofDigitChars 10 digits 0 < 2 ^ 32 := hcore ▸ (hlimit core).mp hle
    rcases hliteral with hplain | hsigned
    · refine ⟨⟨before, false, digits, behind, hbefore, hbehind, hdigits, hfits⟩, ?_, hcore⟩
      exact (hplain ▸ ht).symm
    · refine ⟨⟨before, true, digits, behind, hbefore, hbehind, hdigits, hfits⟩, ?_, hcore⟩
      exact (hsigned ▸ ht).symm
  · rintro ⟨w, rfl, rfl⟩
    refine Numeral.natural_eq_ok_iff.mpr
      ⟨w.digits, w.isDigits, ?_, rfl, (hlimit _).mpr w.fits⟩
    rw [w.framed.trim_eq, Text.trim_of_solid w.solid_literal, Written.literal]
    split
    · exact .inr rfl
    · exact .inl rfl

theorem item_of_not_mem {t : Text} (h : '-' ∉ t) {listed : List Core} :
    item t = .ok listed ↔ ∃ core, coreNumber t = .ok core ∧ [core] = listed := by
  rw [item, Text.cut?_of_not_mem h]
  cases coreNumber t with
  | error cause => simp
  | ok core => simp

theorem item_append {a : Text} (h : '-' ∉ a) (b : Text) {listed : List Core} :
    item (a ++ '-' :: b) = .ok listed ↔
      ∃ first last, coreNumber a = .ok first ∧ coreNumber b = .ok last ∧ first ≤ last ∧
        List.Ico first (last + 1) = listed := by
  simp only [item, Text.cut?_append h]
  cases coreNumber a with
  | error cause => simp
  | ok first =>
    cases coreNumber b with
    | error cause => simp
    | ok last =>
      simp only [Except.ok.injEq]
      split_ifs with hlt
      · have hle : ¬first ≤ last := Nat.not_le_of_lt hlt
        simp [hle]
      · have hle : first ≤ last := Nat.le_of_not_lt hlt
        simp [hle, range, List.Ico]

/-- One core, or all from a first to a last one. -/
inductive Item where
  | one (w : Written)
  | span (first last : Written) (ordered : first.core ≤ last.core)

namespace Item

def text : Item → Text
  | one w => w.text
  | span first last _ => first.text ++ '-' :: last.text

def cores : Item → List Core
  | one w => [w.core]
  | span first last _ => List.Ico first.core (last.core + 1)

theorem no_comma (i : Item) : ',' ∉ i.text := by
  cases i with
  | one w => exact w.no_comma
  | span first last ordered => simp [text, Written.no_comma]

end Item

theorem item_eq_ok_iff {t : Text} {listed : List Core} :
    item t = .ok listed ↔ ∃ i : Item, i.text = t ∧ i.cores = listed := by
  constructor
  · intro h
    by_cases hdash : '-' ∈ t
    case pos =>
      obtain ⟨a, b, rfl, ha⟩ := List.eq_append_cons_of_mem hdash
      obtain ⟨_, _, hfirst, hlast, hle, rfl⟩ := (item_append ha b).mp h
      obtain ⟨first, rfl, rfl⟩ := coreNumber_eq_ok_iff.mp hfirst
      obtain ⟨last, rfl, rfl⟩ := coreNumber_eq_ok_iff.mp hlast
      exact ⟨.span first last hle, rfl, rfl⟩
    case neg =>
      obtain ⟨core, hcore, rfl⟩ := (item_of_not_mem hdash).mp h
      obtain ⟨w, rfl, rfl⟩ := coreNumber_eq_ok_iff.mp hcore
      exact ⟨.one w, rfl, rfl⟩
  · rintro ⟨i, rfl, rfl⟩
    cases i with
    | one w =>
      exact (item_of_not_mem w.no_dash).mpr ⟨w.core, coreNumber_eq_ok_iff.mpr ⟨w, rfl, rfl⟩, rfl⟩
    | span first last ordered =>
      exact (item_append first.no_dash last.text).mpr
        ⟨first.core, last.core, coreNumber_eq_ok_iff.mpr ⟨first, rfl, rfl⟩,
          coreNumber_eq_ok_iff.mpr ⟨last, rfl, rfl⟩, ordered, rfl⟩

theorem coreNumber_framed {w t : Text} (h : Text.Framed w t) : coreNumber t = coreNumber w := by
  rw [coreNumber, coreNumber, h.trim_eq]

/-- Blanks at the ends of an item do not count. -/
theorem item_of_framed {w t : Text} (h : Text.Framed w t) {listed : List Core}
    (ht : item t = .ok listed) : item w = .ok listed := by
  have hnumber := coreNumber_framed h
  obtain ⟨x, y, hx, hy, rfl⟩ := h
  have hdash {a : Text} (ha : ∀ c ∈ a, Text.isBlank c = true) : '-' ∉ a :=
    fun hm => absurd (ha '-' hm) (by decide)
  by_cases hm : '-' ∈ w
  case pos =>
    obtain ⟨a, b, rfl, ha⟩ := List.eq_append_cons_of_mem hm
    have hfirst : coreNumber (x ++ a) = coreNumber a :=
      coreNumber_framed ⟨x, [], hx, by simp, by simp⟩
    have hlast : coreNumber (b ++ y) = coreNumber b :=
      coreNumber_framed ⟨[], y, by simp, hy, by simp⟩
    have hxa : '-' ∉ x ++ a := fun hin => (List.mem_append.mp hin).elim (hdash hx) ha
    have hcut : x ++ (a ++ '-' :: b) ++ y = x ++ a ++ '-' :: (b ++ y) := by simp
    rw [hcut, item_append hxa, hfirst, hlast] at ht
    exact (item_append ha b).mpr ht
  case neg =>
    rw [item_of_not_mem (by simp [hm, hdash hx, hdash hy]), hnumber] at ht
    exact (item_of_not_mem hm).mpr ht

theorem Item.text_ne_nil (i : Item) : i.text ≠ [] := by
  intro hnil
  have hread : item [] = .ok i.cores := item_eq_ok_iff.mpr ⟨i, hnil, rfl⟩
  cases hread

theorem mapM_item_eq_ok_iff {parts : List Text} {lists : List (List Core)} :
    parts.mapM item = .ok lists ↔
      ∃ items : List Item, items.map Item.text = parts ∧ items.map Item.cores = lists := by
  rw [mapM_eq_ok_iff]
  constructor
  · intro h
    induction h with
    | nil => exact ⟨[], rfl, rfl⟩
    | cons hitem _ ih =>
      obtain ⟨i, rfl, rfl⟩ := item_eq_ok_iff.mp hitem
      obtain ⟨items, rfl, rfl⟩ := ih
      exact ⟨i :: items, rfl, rfl⟩
  · rintro ⟨items, rfl, rfl⟩
    rw [List.forall₂_map_left_iff, List.forall₂_map_right_iff, List.forall₂_same]
    exact fun i _ => item_eq_ok_iff.mpr ⟨i, rfl, rfl⟩

theorem mapM_item_of_framed {ws ts : List Text} (h : List.Forall₂ Text.Framed ws ts)
    {lists : List (List Core)} (ht : ts.mapM item = .ok lists) : ws.mapM item = .ok lists := by
  rw [mapM_eq_ok_iff] at ht ⊢
  induction h generalizing lists with
  | nil => exact ht
  | cons hframed _ ih =>
    cases ht with
    | cons hitem hrest => exact .cons (item_of_framed hframed hitem) (ih hrest)

/-- The stretches between the commas of a list that have characters. -/
def parts (t : Text) : List Text := ((Text.trim t).splitOn ',').filter (· ≠ [])

theorem cores_eq_ok_iff {t : Text} {listed : List Core} :
    cores t = .ok listed ↔
      ∃ items : List Item, items.map Item.text = parts t ∧ items.flatMap Item.cores = listed := by
  have hparts : (Text.splitAt ',' (Text.trim t)).filter (fun part => !part.isEmpty) = parts t := by
    rw [Text.splitAt_eq_splitOn, parts]
    exact List.filter_congr fun w _ => by cases w <;> rfl
  rw [cores, hparts, map_eq_ok_iff]
  simp only [mapM_item_eq_ok_iff, List.flatMap_def]
  constructor
  · rintro ⟨_, ⟨items, htext, rfl⟩, hlisted⟩
    exact ⟨items, htext, hlisted⟩
  · rintro ⟨items, htext, hlisted⟩
    exact ⟨_, ⟨items, htext, rfl⟩, hlisted⟩

/-- Items that are written with commas between them are read again. -/
theorem cores_joinWith (items : List Item) :
    cores (Text.joinWith [','] (items.map Item.text)) = .ok (items.flatMap Item.cores) := by
  by_cases hnil : items = []
  case pos =>
    subst hnil
    decide
  case neg =>
    have hsplit :
        (Text.joinWith [','] (items.map Item.text)).splitOn ',' = items.map Item.text := by
      refine List.splitOn_intercalate ',' ?_ (by simpa using hnil)
      simpa using fun i _ => i.no_comma
    have hcomma (c : Char) (hc : Text.isBlank c = true) : (c == ',') = false :=
      beq_false_of_ne fun heq => absurd (heq ▸ hc) (by decide)
    have hframed :=
      (Text.framed_trim (Text.joinWith [','] (items.map Item.text))).splitOnP hcomma
    have hread : (items.map Item.text).mapM item = .ok (items.map Item.cores) :=
      mapM_item_eq_ok_iff.mpr ⟨items, rfl, rfl⟩
    obtain ⟨inner, htext, hcores⟩ :=
      mapM_item_eq_ok_iff.mp (mapM_item_of_framed hframed (hsplit ▸ hread))
    refine cores_eq_ok_iff.mpr ⟨inner, ?_, ?_⟩
    · rw [parts, List.splitOn, ← htext, List.filter_eq_self.mpr]
      simpa using fun i _ => i.text_ne_nil
    · rw [List.flatMap_def, List.flatMap_def, hcores]

/-- A list is read exactly when each stretch between its commas is empty or an item, as the cores of
the items in order; so items that are written with commas between them are read as their cores. -/
theorem cores_listed (t : Text) :
    (∀ listed, cores t = .ok listed ↔
      ∃ items : List Item, items.map Item.text = parts t ∧ items.flatMap Item.cores = listed) ∧
    ((∃ listed, cores t = .ok listed) ↔ ∀ part ∈ parts t, ∃ i : Item, i.text = part) ∧
    ∀ items : List Item,
      cores (Text.joinWith [','] (items.map Item.text)) = .ok (items.flatMap Item.cores) := by
  refine ⟨fun listed => cores_eq_ok_iff, ?_, cores_joinWith⟩
  have hread : (∃ listed, cores t = .ok listed) ↔ parts t ∈ Set.range (List.map Item.text) := by
    simp [cores_eq_ok_iff]
  rw [hread, Set.range_list_map]
  rfl

example : cores " 4294967294 - 4294967295,, +7,\n".toList = .ok [4294967294, 4294967295, 7] := by
  decide +kernel

end Host
end TraceReport

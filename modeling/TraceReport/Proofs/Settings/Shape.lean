import Mathlib.Data.List.Nodup
import Mathlib.Data.List.Pairwise
import Mathlib.Data.List.Perm.Basic
import TraceReport.Proofs.Host
import TraceReport.Proofs.Json.Reading
import TraceReport.Settings.Shape

namespace TraceReport

section Keys

variable {α κ : Type} [BEq κ] [LawfulBEq κ] (keyOf : α → κ) {l : List α} {key : κ} {a : α}

/-- Where keys occur once, what is found under a key is what has the key. -/
theorem find?_key_eq_some_iff (h : (l.map keyOf).Nodup) :
    (l.find? fun b => keyOf b == key) = some a ↔ a ∈ l ∧ keyOf a = key := by
  have hkey {b : α} (hfind : (l.find? fun b => keyOf b == key) = some b) : keyOf b = key := by
    simpa using List.find?_some hfind
  constructor
  · intro hfind
    exact ⟨List.mem_of_find?_eq_some hfind, hkey hfind⟩
  · rintro ⟨hmem, hsame⟩
    cases hfind : l.find? fun b => keyOf b == key with
    | none => exact absurd hsame (by simpa using List.find?_eq_none.mp hfind a hmem)
    | some b =>
      rw [List.inj_on_of_nodup_map h (List.mem_of_find?_eq_some hfind) hmem
        ((hkey hfind).trans hsame.symm)]

theorem filter_key_eq_singleton_iff (h : (l.map keyOf).Nodup) :
    (l.filter fun b => keyOf b == key) = [a] ↔ a ∈ l ∧ keyOf a = key := by
  rw [← List.perm_singleton,
    List.perm_ext_iff_of_nodup (h.of_map.filter _) (List.nodup_singleton a)]
  simp only [List.mem_filter, beq_iff_eq, List.mem_singleton]
  constructor
  · intro hiff
    exact (hiff a).mpr rfl
  · rintro ⟨hmem, rfl⟩ b
    constructor
    · rintro ⟨hb, hsame⟩
      exact List.inj_on_of_nodup_map h hb hmem hsame
    · rintro rfl
      exact ⟨hmem, rfl⟩

end Keys

namespace Shape

/-- The values of a record under its keys. An object has them as members, among others and in any
order, and may lack some. An array has them alone, and in the order of the keys. -/
inductive Keyed (keys : List String) : Json → List (Option Json) → Prop
  | object {members : List (Text × Json)} {values : List (Option Json)}
      (h : List.Forall₂ (fun key value => ∀ v, value = some v ↔ (key.toList, v) ∈ members)
        keys values) :
      Keyed keys (.object members) values
  | array {items : List Json} (h : items.length = keys.length) :
      Keyed keys (.array items) (items.map some)

theorem Keyed.length_eq {keys : List String} {j : Json} {values : List (Option Json)}
    (h : Keyed keys j values) : values.length = keys.length := by
  cases h with
  | object h => exact h.length_eq.symm
  | array h => rw [List.length_map, h]

theorem Keyed.orderly {keys : List String} {j : Json} {values : List (Option Json)}
    (h : Keyed keys j values) (hj : j.Orderly) {v : Json} (hv : some v ∈ values) : v.Orderly := by
  cases h with
  | @object members values h =>
    cases hj with | object _ hmembers =>
    obtain ⟨i, hi, hget⟩ := List.getElem_of_mem hv
    have hi' : i < keys.length := h.length_eq ▸ hi
    exact hmembers _ ((h.get hi' hi v).mp hget)
  | array h =>
    cases hj with | array hitems =>
    obtain ⟨item, hitem, heq⟩ := List.mem_map.mp hv
    exact hitems v (Option.some.inj heq ▸ hitem)

@[simp]
theorem map_required_eq_ok_iff {α β : Type} {key : String} {held : Option α} {f : α → β} {b : β} :
    f <$> required key held = .ok b ↔ ∃ a, held = some a ∧ f a = b := by
  cases held <;> simp [required, Functor.map, Except.map]

@[simp]
theorem required_eq_ok_iff {α : Type} {key : String} {held : Option α} {a : α} :
    required key held = .ok a ↔ held = some a := by
  cases held <;> simp [required]

namespace Fields

/-- A key, and how a value under it goes into a part-filled record. -/
abbrev Field (π : Type) := String × (Json → π → Except Mismatch π)

variable {π α : Type}

def fill (parts : π) (entry : Field π × Json) : Except Mismatch π := entry.1.2 entry.2 parts

/-- The fields with their values, in the order of the fields. -/
def declared (fields : List (Field π)) (values : List (Option Json)) : List (Field π × Json) :=
  (fields.zip values).filterMap fun entry => entry.2.map fun value => (entry.1, value)

/-- The fields with their values, in the order of the members that hold them. -/
def found (fields : List (Field π)) (members : List (Text × Json)) : List (Field π × Json) :=
  members.filterMap fun member =>
    (fields.find? fun field => field.1.toList == member.1).map fun field => (field, member.2)

/-- Fields that can be filled in in either order. -/
def Commute (a b : Field π) : Prop :=
  ∀ v w parts, (a.2 v parts >>= b.2 w).toOption = (b.2 w parts >>= a.2 v).toOption

/-- Fields with keys of their own that can be filled in in any order. -/
structure Independent (fields : List (Field π)) : Prop where
  keys : (fields.map Prod.fst).Nodup
  commute : fields.Pairwise Commute

@[simp]
theorem declared_nil : declared ([] : List (Field π)) [] = [] := rfl

@[simp]
theorem declared_cons_some (field : Field π) (fields : List (Field π)) (value : Json)
    (values : List (Option Json)) :
    declared (field :: fields) (some value :: values) = (field, value) :: declared fields values :=
  rfl

@[simp]
theorem declared_cons_none (field : Field π) (fields : List (Field π))
    (values : List (Option Json)) :
    declared (field :: fields) (none :: values) = declared fields values :=
  rfl

@[simp]
theorem fill_field {β : Type} (key : String) (read : Reader β) (put : β → π → π) (parts : π)
    (value : Json) :
    fill parts (field key read put, value) = (read value).map fun b => put b parts :=
  rfl

theorem commute_field {β γ : Type} {key other : String} {read : Reader β} {readOther : Reader γ}
    {put : β → π → π} {putOther : γ → π → π}
    (h : ∀ b c parts, put b (putOther c parts) = putOther c (put b parts)) :
    Commute (field key read put) (field other readOther putOther) := by
  intro v w parts
  simp only [field]
  cases read v with
  | error _ =>
    cases readOther w with
    | error _ => rfl
    | ok _ => rfl
  | ok b =>
    cases readOther w with
    | error _ => rfl
    | ok c => exact congrArg some (h b c parts).symm

variable {fields : List (Field π)}

/-- One more value, if the ones before could be filled in. -/
def attempt (done : Option π) (entry : Field π × Json) : Option π :=
  done.bind fun parts => (fill parts entry).toOption

theorem toOption_foldlM_fill (entries : List (Field π × Json)) (done : Except Mismatch π) :
    (done >>= fun parts => entries.foldlM fill parts).toOption =
      entries.foldl attempt done.toOption := by
  induction entries generalizing done with
  | nil => cases done <;> rfl
  | cons entry rest ih =>
    have hstep : attempt done.toOption entry = (done >>= fun parts => fill parts entry).toOption := by
      cases done <;> rfl
    rw [List.foldl_cons, hstep, ← ih]
    cases done <;> rfl

theorem attempt_comm {a b : Field π × Json} (h : Commute a.1 b.1) (done : Option π) :
    attempt (attempt done a) b = attempt (attempt done b) a := by
  cases done with
  | none => rfl
  | some parts =>
    have hbind (a b : Field π × Json) : attempt (attempt (some parts) a) b =
        (a.1.2 a.2 parts >>= b.1.2 b.2).toOption := by
      simp only [attempt, fill, Option.bind_some]
      cases a.1.2 a.2 parts <;> rfl
    rw [hbind, hbind, h]

/-- Whether values can be filled in, and with what result, does not hang on their order. Which of
them is at fault does. -/
theorem toOption_foldlM_perm {entries others : List (Field π × Json)} (hp : entries.Perm others)
    (h : ∀ a ∈ entries, ∀ b ∈ entries, a = b ∨ Commute a.1 b.1) (parts : π) :
    (entries.foldlM fill parts).toOption = (others.foldlM fill parts).toOption := by
  have hfold (l : List (Field π × Json)) :
      (l.foldlM fill parts).toOption = l.foldl attempt (some parts) :=
    toOption_foldlM_fill l (.ok parts)
  rw [hfold, hfold]
  apply hp.foldl_eq'
  intro a ha b hb done
  rcases h a ha b hb with rfl | hcomm
  · rfl
  · exact attempt_comm hcomm done

theorem Independent.commute_of_ne (h : Independent fields) {a b : Field π} (ha : a ∈ fields)
    (hb : b ∈ fields) (hne : a ≠ b) : Commute a b := by
  have : Std.Symm (Commute (π := π)) := ⟨fun a b hab v w parts => (hab w v parts).symm⟩
  exact h.commute.forall ha hb hne

/-- A key finds the field that it is the key of. -/
theorem Independent.find?_eq_some_iff (h : Independent fields) {key : Text} {field : Field π} :
    (fields.find? fun other => other.1.toList == key) = some field ↔
      field ∈ fields ∧ field.1.toList = key := by
  apply find?_key_eq_some_iff fun other : Field π => other.1.toList
  have hkeys := h.keys.map (f := String.toList) fun _ _ => String.toList_inj.mp
  rwa [List.map_map] at hkeys

theorem mem_found_iff (h : Independent fields) {members : List (Text × Json)}
    {entry : Field π × Json} :
    entry ∈ found fields members ↔
      entry.1 ∈ fields ∧ (entry.1.1.toList, entry.2) ∈ members := by
  obtain ⟨field, value⟩ := entry
  simp only [found, List.mem_filterMap, Option.map_eq_some_iff, h.find?_eq_some_iff]
  constructor
  · rintro ⟨⟨key, v⟩, hm, other, ⟨hfield, rfl⟩, heq⟩
    obtain ⟨rfl, rfl⟩ := Prod.mk.inj heq
    exact ⟨hfield, hm⟩
  · rintro ⟨hfield, hm⟩
    exact ⟨_, hm, field, ⟨hfield, rfl⟩, rfl⟩

theorem mem_declared_iff {members : List (Text × Json)} {values : List (Option Json)}
    (h : List.Forall₂ (fun key value => ∀ v, value = some v ↔ (key.toList, v) ∈ members)
      (fields.map Prod.fst) values) {entry : Field π × Json} :
    entry ∈ declared fields values ↔
      entry.1 ∈ fields ∧ (entry.1.1.toList, entry.2) ∈ members := by
  obtain ⟨field, value⟩ := entry
  obtain ⟨hlength, hvalue⟩ := List.forall₂_iff_zip.mp (List.forall₂_map_left_iff.mp h)
  simp only [declared, List.mem_filterMap, Option.map_eq_some_iff]
  constructor
  · rintro ⟨⟨other, held⟩, hm, v, rfl, heq⟩
    obtain ⟨rfl, rfl⟩ := Prod.mk.inj heq
    exact ⟨(List.of_mem_zip hm).1, (hvalue hm v).mp rfl⟩
  · rintro ⟨hfield, hm⟩
    rw [← List.map_fst_zip hlength.le] at hfield
    obtain ⟨⟨other, held⟩, hzip, rfl⟩ := List.mem_map.mp hfield
    exact ⟨_, hzip, value, (hvalue hzip value).mpr hm, rfl⟩

theorem nodup_found (h : Independent fields) {members : List (Text × Json)}
    (hm : Table.Ordered members) : (found fields members).Nodup := by
  apply List.Nodup.filterMap _ hm.nodup_keys.of_map
  rintro ⟨key, v⟩ ⟨other, w⟩ entry ha hb
  obtain ⟨field, hfield, rfl⟩ := Option.map_eq_some_iff.mp ha
  obtain ⟨field', hfield', heq⟩ := Option.map_eq_some_iff.mp hb
  obtain ⟨rfl, rfl⟩ := Prod.mk.inj heq
  obtain rfl : key = other :=
    (h.find?_eq_some_iff.mp hfield).2.symm.trans (h.find?_eq_some_iff.mp hfield').2
  rfl

theorem nodup_declared (h : Independent fields) {values : List (Option Json)}
    (hlength : fields.length = values.length) : (declared fields values).Nodup := by
  have hzip : (fields.zip values).Nodup := by
    apply List.Nodup.of_map Prod.fst
    rw [List.map_fst_zip hlength.le]
    exact h.keys.of_map
  apply List.Nodup.filterMap _ hzip
  rintro ⟨field, value⟩ ⟨other, held⟩ entry ha hb
  obtain ⟨v, rfl, rfl⟩ := Option.map_eq_some_iff.mp ha
  obtain ⟨w, rfl, heq⟩ := Option.map_eq_some_iff.mp hb
  obtain ⟨rfl, rfl⟩ := Prod.mk.inj heq
  rfl

/-- The members of an object may as well come in the order of the fields. -/
theorem toOption_foldlM_found (h : Independent fields) {members : List (Text × Json)}
    (hm : Table.Ordered members) {values : List (Option Json)}
    (hvalues : List.Forall₂ (fun key value => ∀ v, value = some v ↔ (key.toList, v) ∈ members)
      (fields.map Prod.fst) values) (parts : π) :
    ((found fields members).foldlM fill parts).toOption =
      ((declared fields values).foldlM fill parts).toOption := by
  apply toOption_foldlM_perm
  · have hlength : fields.length = values.length := by
      rw [← hvalues.length_eq, List.length_map]
    rw [List.perm_ext_iff_of_nodup (nodup_found h hm) (nodup_declared h hlength)]
    intro entry
    rw [mem_found_iff h, mem_declared_iff hvalues]
  · rintro ⟨a, v⟩ ha ⟨b, w⟩ hb
    obtain ⟨ha, hv⟩ := (mem_found_iff h).mp ha
    obtain ⟨hb, hw⟩ := (mem_found_iff h).mp hb
    by_cases hab : a = b
    · subst hab
      obtain ⟨-, rfl⟩ := Prod.mk.inj (List.inj_on_of_nodup_map hm.nodup_keys hv hw rfl)
      exact .inl rfl
    · exact .inr (h.commute_of_ne ha hb hab)

theorem exists_values (fields : List (Field π)) {members : List (Text × Json)}
    (hm : Table.Ordered members) :
    ∃ values, Keyed (fields.map Prod.fst) (.object members) values := by
  refine ⟨(fields.map Prod.fst).map fun key => Table.find? key.toList members, .object ?_⟩
  rw [List.forall₂_map_right_iff, List.forall₂_same]
  exact fun key _ v => ⟨Table.mem_of_find?, Table.find?_eq_some_of_mem hm⟩

theorem declared_map_some (fields : List (Field π)) (items : List Json) :
    declared fields (items.map some) = fields.zip items := by
  rw [declared, List.zip_map_right, List.filterMap_map]
  exact List.filterMap_some

theorem read_object (shape : Fields π α) (members : List (Text × Json)) :
    shape.read (.object members) =
      (found shape.fields members).foldlM fill shape.blank >>= shape.whole := by
  rw [found, List.foldlM_filterMap, read]
  congr 2
  funext parts ⟨key, value⟩
  dsimp only
  cases shape.fields.find? fun field => field.1.toList == key <;> rfl

/-- A record is read as what its values under the keys of the fields make. -/
theorem read_eq_ok_iff (shape : Fields π α) (h : Independent shape.fields) {j : Json}
    (hj : j.Orderly) {a : α} :
    shape.read j = .ok a ↔ ∃ values, Keyed (shape.fields.map Prod.fst) j values ∧
      ((declared shape.fields values).foldlM fill shape.blank >>= shape.whole) = .ok a := by
  cases hj with
  | null | bool _ | int _ | real _ | string _ =>
    exact ⟨nofun, fun ⟨_, hkeyed, _⟩ => nomatch hkeyed⟩
  | @array items hitems =>
    constructor
    · intro hread
      obtain ⟨parts, hparts, hwhole⟩ := bind_eq_ok_iff.mp hread
      split_ifs at hwhole with hshort hlong
      have hlength : items.length = (shape.fields.map Prod.fst).length := by
        rw [List.length_map]
        omega
      refine ⟨_, .array hlength, ?_⟩
      rw [declared_map_some]
      exact bind_eq_ok_iff.mpr ⟨parts, hparts, hwhole⟩
    · rintro ⟨values, hkeyed, hvalues⟩
      cases hkeyed with | array hlength =>
      rw [List.length_map] at hlength
      rw [declared_map_some] at hvalues
      obtain ⟨parts, hparts, hwhole⟩ := bind_eq_ok_iff.mp hvalues
      refine bind_eq_ok_iff.mpr ⟨parts, hparts, ?_⟩
      rw [if_neg hlength.not_lt, if_neg hlength.not_gt]
      exact hwhole
  | @object members hm hmembers =>
    have hiff {values : List (Option Json)}
        (hkeyed : Keyed (shape.fields.map Prod.fst) (.object members) values) :
        shape.read (.object members) = .ok a ↔
          ((declared shape.fields values).foldlM fill shape.blank >>= shape.whole) = .ok a := by
      obtain ⟨hvalues⟩ := hkeyed
      simp only [read_object, bind_eq_ok_iff, ← toOption_eq_some_iff (x := List.foldlM _ _ _),
        toOption_foldlM_found h hm hvalues]
    constructor
    · intro hread
      obtain ⟨values, hkeyed⟩ := exists_values shape.fields hm
      exact ⟨values, hkeyed, (hiff hkeyed).mp hread⟩
    · rintro ⟨values, hkeyed, hvalues⟩
      exact (hiff hkeyed).mpr hvalues

end Fields
end Shape
end TraceReport

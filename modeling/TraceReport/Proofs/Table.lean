import Mathlib.Algebra.BigOperators.Group.List.Basic
import Mathlib.Algebra.GroupWithZero.Nat
import Mathlib.Tactic.SplitIfs
import TraceReport.Table

namespace TraceReport.Table

/-- Keys of which any two are in order. -/
class KeyOrder (κ : Type) [LT κ] : Prop where
  asymm : ∀ {a b : κ}, a < b → ¬b < a
  trans : ∀ {a b c : κ}, a < b → b < c → a < c
  eq : ∀ {a b : κ}, ¬a < b → ¬b < a → a = b

theorem KeyOrder.irrefl {κ : Type} [LT κ] [KeyOrder κ] (a : κ) : ¬a < a :=
  fun h => KeyOrder.asymm h h

instance : KeyOrder Int where
  asymm h := by omega
  trans hab hbc := by omega
  eq hab hba := by omega

instance : KeyOrder (List Char) where
  asymm := List.lt_asymm
  trans := List.lt_trans
  eq hab hba := List.le_antisymm hba hab

/-- Every key is above the one before it. -/
def Ordered {κ ν : Type} [LT κ] (table : Table κ ν) : Prop :=
  table.Pairwise fun a b => a.1 < b.1

instance {κ ν : Type} [LT κ] [DecidableLT κ] (table : Table κ ν) : Decidable (Ordered table) :=
  inferInstanceAs (Decidable (table.Pairwise fun a b => a.1 < b.1))

section

variable {κ ν : Type} [LT κ]

theorem Ordered.head_lt {a b : κ × ν} {rest : Table κ ν} (h : Ordered (a :: rest))
    (hb : b ∈ rest) : a.1 < b.1 :=
  List.rel_of_pairwise_cons h hb

theorem Ordered.tail {a : κ × ν} {rest : Table κ ν} (h : Ordered (a :: rest)) : Ordered rest :=
  List.Pairwise.of_cons h

theorem ordered_map (f : κ → ν → ν) {table : Table κ ν} (h : Ordered table) :
    Ordered (table.map fun (k, v) => (k, f k v)) :=
  h.map _ fun _ _ hk => hk

theorem mem_insert [DecidableLT κ] {key : κ} {value : ν} {entry : κ × ν} {table : Table κ ν}
    (h : entry ∈ insert key value table) : entry = (key, value) ∨ entry ∈ table := by
  induction table with
  | nil => simpa [insert] using h
  | cons head rest ih =>
    obtain ⟨k, v⟩ := head
    simp only [insert] at h
    split_ifs at h with h1 h2
    · simpa using h
    · rcases List.mem_cons.mp h with he | hr
      · exact .inr (he ▸ List.mem_cons_self)
      · exact (ih hr).imp id (List.mem_cons_of_mem _)
    · rcases List.mem_cons.mp h with he | hr
      · exact .inl he
      · exact .inr (List.mem_cons_of_mem _ hr)

theorem mem_of_mem_insertAll [DecidableLT κ] {pairs : List (κ × ν)} {table : Table κ ν}
    {entry : κ × ν} (h : entry ∈ insertAll table pairs) : entry ∈ pairs ∨ entry ∈ table := by
  induction pairs generalizing table with
  | nil => exact .inr h
  | cons pair rest ih =>
    rcases ih h with hrest | htable
    · exact .inl (List.mem_cons_of_mem _ hrest)
    · rcases mem_insert htable with rfl | hold
      · exact .inl List.mem_cons_self
      · exact .inr hold

theorem mem_of_mem_ofPairs [DecidableLT κ] {pairs : List (κ × ν)} {entry : κ × ν}
    (h : entry ∈ ofPairs pairs) : entry ∈ pairs :=
  (mem_of_mem_insertAll h).resolve_right List.not_mem_nil

theorem ofPairs_concat [DecidableLT κ] (pairs : List (κ × ν)) (key : κ) (value : ν) :
    ofPairs (pairs ++ [(key, value)]) = insert key value (ofPairs pairs) := by
  rw [ofPairs, insertAll, List.foldl_append]
  rfl

end

section

variable {κ ν μ : Type} [LT κ] [DecidableLT κ] (f : ν → μ) (key : κ) (table : Table κ ν)

/-- Keys decide where a pair stands, whatever is under them. -/
theorem find?_map :
    find? key (table.map fun (k, v) => (k, f v)) = (find? key table).map f := by
  induction table with
  | nil => rfl
  | cons head rest ih =>
    simp only [List.map_cons, find?, ih]
    split_ifs <;> rfl

theorem erase_map :
    erase key (table.map fun (k, v) => (k, f v)) =
      (erase key table).map fun (k, v) => (k, f v) := by
  induction table with
  | nil => rfl
  | cons head rest ih =>
    simp only [List.map_cons, erase, ih]
    split_ifs <;> rfl

theorem insert_map (value : ν) :
    insert key (f value) (table.map fun (k, v) => (k, f v)) =
      (insert key value table).map fun (k, v) => (k, f v) := by
  induction table with
  | nil => rfl
  | cons head rest ih =>
    simp only [List.map_cons, insert, ih]
    split_ifs <;> rfl

end

section

variable {κ ν : Type} [LT κ] [KeyOrder κ]

/-- Ordered tables of the same pairs are the same. -/
theorem Ordered.eq_of_perm {a b : Table κ ν} (ha : Ordered a) (hb : Ordered b) (h : a.Perm b) :
    a = b := by
  refine h.eq_of_pairwise ?_ ha hb
  intro x y _ _ hxy hyx
  exact absurd hyx (KeyOrder.asymm hxy)

theorem Ordered.nodup_keys {table : Table κ ν} (h : Ordered table) :
    (table.map Prod.fst).Nodup := by
  apply List.pairwise_map.mpr
  apply h.imp
  intro a b hlt heq
  exact KeyOrder.irrefl a.1 (heq ▸ hlt)

end

section

variable {κ ν : Type} [LT κ] [DecidableLT κ] [KeyOrder κ]

theorem mem_of_find? {key : κ} {value : ν} {table : Table κ ν}
    (h : find? key table = some value) : (key, value) ∈ table := by
  induction table with
  | nil => simp [find?] at h
  | cons entry rest ih =>
    obtain ⟨k, v⟩ := entry
    simp only [find?] at h
    split_ifs at h with h1 h2
    · exact List.mem_cons_of_mem _ (ih h)
    · have hk : key = k := KeyOrder.eq h1 h2
      have hv : v = value := by simpa using h
      subst hk hv
      exact List.mem_cons_self

theorem find?_eq_some_of_mem {key : κ} {value : ν} {table : Table κ ν} (ho : Ordered table)
    (h : (key, value) ∈ table) : find? key table = some value := by
  induction table with
  | nil => simp at h
  | cons entry rest ih =>
    obtain ⟨k, v⟩ := entry
    rcases List.mem_cons.mp h with he | hr
    · cases he
      simp [find?, KeyOrder.irrefl]
    · have hk : k < key := ho.head_lt hr
      simp only [find?, if_neg (KeyOrder.asymm hk), if_pos hk]
      exact ih ho.tail hr

theorem find?_eq_none_iff {key : κ} {table : Table κ ν} (ho : Ordered table) :
    find? key table = none ↔ ∀ entry ∈ table, entry.1 ≠ key := by
  constructor
  · rintro h ⟨k, v⟩ hm rfl
    rw [find?_eq_some_of_mem ho hm] at h
    simp at h
  · intro h
    cases hf : find? key table with
    | none => rfl
    | some value => exact absurd rfl (h _ (mem_of_find? hf))

@[simp]
theorem find?_insert_self (key : κ) (value : ν) (table : Table κ ν) :
    find? key (insert key value table) = some value := by
  induction table with
  | nil => simp [insert, find?, KeyOrder.irrefl]
  | cons entry rest ih =>
    obtain ⟨k, v⟩ := entry
    simp only [insert]
    split_ifs with h1 h2
    · simp [find?, KeyOrder.irrefl]
    · simp [find?, h1, h2, ih]
    · simp [find?, KeyOrder.irrefl]

theorem find?_insert_of_ne {key other : κ} (h : other ≠ key) (value : ν) (table : Table κ ν) :
    find? other (insert key value table) = find? other table := by
  induction table with
  | nil =>
    simp only [insert, find?]
    split_ifs with h1 h2
    · rfl
    · rfl
    · exact absurd (KeyOrder.eq h1 h2) h
  | cons entry rest ih =>
    obtain ⟨k, v⟩ := entry
    simp only [insert]
    split_ifs with h1 h2
    · by_cases hlow : other < key
      · simp [find?, hlow, KeyOrder.trans hlow h1]
      · have hhigh : key < other := by
          by_contra hn
          exact h (KeyOrder.eq hlow hn)
        simp [find?, hlow, hhigh]
    · simp only [find?, ih]
    · have hk : key = k := KeyOrder.eq h1 h2
      subst hk
      simp only [find?]
      split_ifs with h3 h4
      · rfl
      · rfl
      · exact absurd (KeyOrder.eq h3 h4) h

/-- What is written under a key covers what was written there before. -/
theorem insert_insert (key : κ) (first second : ν) (table : Table κ ν) :
    insert key second (insert key first table) = insert key second table := by
  induction table with
  | nil => simp [insert, KeyOrder.irrefl]
  | cons entry rest ih =>
    obtain ⟨k, v⟩ := entry
    simp only [insert]
    split_ifs with h1 h2
    · simp [insert, KeyOrder.irrefl]
    · simp [insert, h1, h2, ih]
    · simp [insert, KeyOrder.irrefl]

theorem find?_insertAll_of_ne {key : κ} {pairs : List (κ × ν)} (h : ∀ pair ∈ pairs, pair.1 ≠ key)
    (table : Table κ ν) : find? key (insertAll table pairs) = find? key table := by
  induction pairs generalizing table with
  | nil => rfl
  | cons pair rest ih =>
    obtain ⟨hpair, hrest⟩ := List.forall_mem_cons.mp h
    rw [insertAll, List.foldl_cons, ← insertAll, ih hrest]
    exact find?_insert_of_ne (Ne.symm hpair) pair.2 table

/-- The last value under a key is the one that is found. -/
theorem find?_insertAll {key : κ} {after : List (κ × ν)} (h : ∀ pair ∈ after, pair.1 ≠ key)
    (table : Table κ ν) (before : List (κ × ν)) (value : ν) :
    find? key (insertAll table (before ++ (key, value) :: after)) = some value := by
  rw [insertAll, List.foldl_append, List.foldl_cons, ← insertAll, ← insertAll,
    find?_insertAll_of_ne h, find?_insert_self]

theorem find?_ofPairs {key : κ} {after : List (κ × ν)} (h : ∀ pair ∈ after, pair.1 ≠ key)
    (before : List (κ × ν)) (value : ν) :
    find? key (ofPairs (before ++ (key, value) :: after)) = some value :=
  find?_insertAll h [] before value

theorem ordered_insert (key : κ) (value : ν) {table : Table κ ν} (ho : Ordered table) :
    Ordered (insert key value table) := by
  induction table with
  | nil => exact List.pairwise_singleton _ _
  | cons head rest ih =>
    obtain ⟨k, v⟩ := head
    simp only [insert]
    split_ifs with h1 h2
    · refine List.Pairwise.cons ?_ ho
      intro entry hm
      rcases List.mem_cons.mp hm with rfl | hr
      · exact h1
      · exact KeyOrder.trans h1 (ho.head_lt hr)
    · refine List.Pairwise.cons ?_ (ih ho.tail)
      intro entry hm
      rcases mem_insert hm with rfl | hr
      · exact h2
      · exact ho.head_lt hr
    · have hk : key = k := KeyOrder.eq h1 h2
      subst hk
      exact List.Pairwise.cons (fun entry hm => ho.head_lt hm) ho.tail

/-- A new key adds its pair and moves nothing else. -/
theorem insert_perm {key : κ} (value : ν) {table : Table κ ν}
    (h : ∀ entry ∈ table, entry.1 ≠ key) :
    (insert key value table).Perm ((key, value) :: table) := by
  induction table with
  | nil => exact List.Perm.refl _
  | cons head rest ih =>
    obtain ⟨k, v⟩ := head
    simp only [insert]
    split_ifs with h1 h2
    · exact List.Perm.refl _
    · have hr := ih fun entry hm => h entry (List.mem_cons_of_mem _ hm)
      exact (hr.cons _).trans (List.Perm.swap _ _ _)
    · exact absurd (KeyOrder.eq h1 h2).symm (h (k, v) List.mem_cons_self)

theorem ordered_insertAll {table : Table κ ν} (ho : Ordered table) (pairs : List (κ × ν)) :
    Ordered (insertAll table pairs) := by
  induction pairs generalizing table with
  | nil => exact ho
  | cons pair rest ih => exact ih (ordered_insert pair.1 pair.2 ho)

/-- Where keys occur once, what is written covers what was under its keys, and no more. -/
theorem mem_insertAll_iff {pairs : List (κ × ν)} {table : Table κ ν} (ho : Ordered table)
    (hkeys : (pairs.map Prod.fst).Nodup) {key : κ} {value : ν} :
    (key, value) ∈ insertAll table pairs ↔
      (key, value) ∈ pairs ∨ (∀ other, (key, other) ∉ pairs) ∧ (key, value) ∈ table := by
  have hordered := ordered_insertAll ho pairs
  by_cases hkey : ∀ other, (key, other) ∉ pairs
  · have hne : ∀ pair ∈ pairs, pair.1 ≠ key := fun pair hpair heq => hkey pair.2 (heq ▸ hpair)
    have hfind := find?_insertAll_of_ne hne table
    constructor
    · intro h
      rw [find?_eq_some_of_mem hordered h] at hfind
      exact .inr ⟨hkey, mem_of_find? hfind.symm⟩
    · rintro (h | ⟨-, h⟩)
      · exact absurd h (hkey value)
      · rw [find?_eq_some_of_mem ho h] at hfind
        exact mem_of_find? hfind
  · obtain ⟨other, hother⟩ := not_forall_not.mp hkey
    obtain ⟨before, after, rfl⟩ := List.append_of_mem hother
    rw [List.map_append, List.map_cons] at hkeys
    obtain ⟨-, htail, happart⟩ := List.nodup_append.mp hkeys
    have hbefore : ∀ pair ∈ before, pair.1 ≠ key := fun pair hpair =>
      happart _ (List.mem_map_of_mem hpair) _ List.mem_cons_self
    have hafter : ∀ pair ∈ after, pair.1 ≠ key := by
      rintro pair hpair rfl
      have hmem : pair.1 ∈ after.map Prod.fst := List.mem_map_of_mem hpair
      exact (List.nodup_cons.mp htail).1 hmem
    have hfind := find?_insertAll hafter table before other
    have honly : (key, value) ∈ before ++ (key, other) :: after ↔ value = other := by
      constructor
      · intro h
        rcases List.mem_append.mp h with h | h
        · exact absurd rfl (hbefore _ h)
        · rcases List.mem_cons.mp h with h | h
          · exact (Prod.mk.inj h).2
          · exact absurd rfl (hafter _ h)
      · rintro rfl
        simp
    rw [honly]
    constructor
    · intro h
      rw [find?_eq_some_of_mem hordered h] at hfind
      exact .inl (Option.some.inj hfind)
    · rintro (rfl | ⟨hnone, -⟩)
      · exact mem_of_find? hfind
      · exact absurd (by simp) (hnone other)

/-- Pairs under new keys are all kept. -/
theorem insertAll_perm {pairs : List (κ × ν)} {table : Table κ ν}
    (h : ((pairs ++ table).map Prod.fst).Nodup) :
    (insertAll table pairs).Perm (pairs ++ table) := by
  induction pairs generalizing table with
  | nil => exact List.Perm.refl _
  | cons pair rest ih =>
    rw [List.cons_append, List.map_cons, List.nodup_cons] at h
    have hfresh : ∀ entry ∈ table, entry.1 ≠ pair.1 := by
      rintro entry hm heq
      exact h.1 (heq ▸ List.mem_map_of_mem (List.mem_append_right rest hm))
    have hinsert := (insert_perm pair.2 hfresh).append_left rest
    have hmoved : (rest ++ insert pair.1 pair.2 table).Perm (pair :: (rest ++ table)) :=
      hinsert.trans List.perm_middle
    have hnodup : ((rest ++ insert pair.1 pair.2 table).map Prod.fst).Nodup := by
      rw [(hmoved.map Prod.fst).nodup_iff, List.map_cons, List.nodup_cons]
      exact h
    exact (ih hnodup).trans hmoved

/-- The pairs of a table give the table again, in whatever order they come. -/
theorem ofPairs_eq_of_perm {table : Table κ ν} {pairs : List (κ × ν)} (ho : Ordered table)
    (h : pairs.Perm table) : ofPairs pairs = table := by
  have hkeys : ((pairs ++ []).map Prod.fst).Nodup := by
    rw [List.append_nil, (h.map Prod.fst).nodup_iff]
    exact ho.nodup_keys
  have hperm := insertAll_perm hkeys
  rw [List.append_nil] at hperm
  exact (ordered_insertAll List.Pairwise.nil pairs).eq_of_perm ho (hperm.trans h)

theorem erase_eq_filter [DecidableEq κ] (key : κ) {table : Table κ ν} (ho : Ordered table) :
    erase key table = table.filter fun entry => entry.1 ≠ key := by
  induction table with
  | nil => rfl
  | cons head rest ih =>
    obtain ⟨k, v⟩ := head
    have keep (hk : ∀ entry ∈ rest, entry.1 ≠ key) :
        rest.filter (fun entry => entry.1 ≠ key) = rest :=
      List.filter_eq_self.mpr fun entry hm => by simpa using hk entry hm
    have above : ¬k < key → ∀ entry ∈ rest, entry.1 ≠ key := by
      rintro hn entry hm rfl
      exact hn (ho.head_lt hm)
    simp only [erase]
    split_ifs with h1 h2
    · have hne : k ≠ key := by rintro rfl; exact KeyOrder.irrefl _ h1
      rw [List.filter_cons_of_pos (by simpa using hne), keep (above (KeyOrder.asymm h1))]
    · have hne : k ≠ key := by rintro rfl; exact KeyOrder.irrefl _ h2
      rw [List.filter_cons_of_pos (by simpa using hne), ih ho.tail]
    · rw [List.filter_cons_of_neg (by simp [KeyOrder.eq h1 h2]), keep (above h2)]

theorem find?_erase_of_ne [DecidableEq κ] {key other : κ} (h : other ≠ key) {table : Table κ ν}
    (ho : Ordered table) : find? other (erase key table) = find? other table := by
  have herased : Ordered (table.filter fun entry => entry.1 ≠ key) := ho.filter _
  ext value
  rw [erase_eq_filter key ho]
  constructor
  · intro hfound
    exact find?_eq_some_of_mem ho (List.mem_of_mem_filter (mem_of_find? hfound))
  · intro hfound
    exact find?_eq_some_of_mem herased
      (List.mem_filter.mpr ⟨mem_of_find? hfound, by simpa using h⟩)

theorem filter_key [DecidableEq κ] (key : κ) {table : Table κ ν} (ho : Ordered table) :
    table.filter (fun entry => entry.1 = key) =
      ((find? key table).map fun value => (key, value)).toList := by
  induction table with
  | nil => rfl
  | cons head rest ih =>
    obtain ⟨k, v⟩ := head
    have above (hn : ¬k < key) : rest.filter (fun entry => entry.1 = key) = [] := by
      apply List.filter_eq_nil_iff.mpr
      intro entry hm
      have hlt : k < entry.1 := ho.head_lt hm
      have hne : entry.1 ≠ key := fun he => hn (he ▸ hlt)
      simpa using hne
    simp only [find?]
    split_ifs with h1 h2
    · have hne : k ≠ key := fun he => KeyOrder.irrefl key (he ▸ h1)
      rw [List.filter_cons_of_neg (by simpa using hne), above (KeyOrder.asymm h1)]
      rfl
    · have hne : k ≠ key := fun he => KeyOrder.irrefl key (he ▸ h2)
      rw [List.filter_cons_of_neg (by simpa using hne)]
      exact ih ho.tail
    · have he : k = key := (KeyOrder.eq h1 h2).symm
      rw [List.filter_cons_of_pos (by simpa using he), above h2, he]
      rfl

/-- A sum to which only one key adds anything. -/
theorem sum_map_key {key : κ} {table : Table κ ν} (ho : Ordered table) (f : κ × ν → Nat)
    (hf : ∀ entry ∈ table, entry.1 ≠ key → f entry = 0) :
    (table.map f).sum = ((find? key table).map fun value => f (key, value)).getD 0 := by
  induction table with
  | nil => rfl
  | cons head rest ih =>
    obtain ⟨k, v⟩ := head
    have hrest := ih ho.tail fun entry hm => hf entry (List.mem_cons_of_mem _ hm)
    have above : ¬k < key → find? key rest = none := by
      intro hn
      apply (find?_eq_none_iff ho.tail).mpr
      rintro entry hm rfl
      exact hn (ho.head_lt hm)
    rw [List.map_cons, List.sum_cons, hrest]
    simp only [find?]
    split_ifs with h1 h2
    · have hne : k ≠ key := by rintro rfl; exact KeyOrder.irrefl _ h1
      rw [hf (k, v) List.mem_cons_self hne, above (KeyOrder.asymm h1)]
      rfl
    · have hne : k ≠ key := by rintro rfl; exact KeyOrder.irrefl _ h2
      rw [hf (k, v) List.mem_cons_self hne, Nat.zero_add]
    · rw [above h2, KeyOrder.eq h1 h2]
      rfl

end
end TraceReport.Table

import TraceReport.Proofs.Text.Utf8

namespace TraceReport

namespace Utf8

/-- A byte offset at which no character is cut, within a text or at its end. -/
def IsBoundary (t : Text) (offset : Nat) : Prop := ∃ a b, t = a ++ b ∧ size a = offset

/-- The two parts of a text around a byte offset, if no character is cut there. -/
def cutAt? : Nat → Text → Option (Text × Text)
  | 0, t => some ([], t)
  | _ + 1, [] => none
  | n + 1, c :: rest =>
    if c.utf8Size ≤ n + 1 then
      (cutAt? (n + 1 - c.utf8Size) rest).map fun (front, back) => (c :: front, back)
    else none

/-- The stretch of a text between two byte offsets, if it is one. -/
def slice? (t : Text) (start stop : Nat) : Option Text :=
  (cutAt? stop t).bind fun (front, _) => (cutAt? start front).map Prod.snd

theorem cutAt?_size_append (a b : Text) : cutAt? (size a) (a ++ b) = some (a, b) := by
  induction a with
  | nil => rw [size_nil, List.nil_append, cutAt?]
  | cons c a ih =>
    have hpos : 0 < c.utf8Size := Char.utf8Size_pos c
    obtain ⟨n, hn⟩ : ∃ n, c.utf8Size + size a = n + 1 := ⟨c.utf8Size + size a - 1, by omega⟩
    have hrest : n + 1 - c.utf8Size = size a := by omega
    rw [size_cons, hn, List.cons_append, cutAt?, if_pos (by omega), hrest, ih]
    rfl

theorem eq_append_of_cutAt? {n : Nat} {t a b : Text} (h : cutAt? n t = some (a, b)) :
    t = a ++ b ∧ size a = n := by
  induction t generalizing n a with
  | nil =>
    cases n with
    | zero =>
      cases h
      exact ⟨rfl, rfl⟩
    | succ n => simp [cutAt?] at h
  | cons c t ih =>
    cases n with
    | zero =>
      cases h
      exact ⟨rfl, rfl⟩
    | succ n =>
      rw [cutAt?] at h
      split_ifs at h with hle
      obtain ⟨⟨front, back⟩, hcut, heq⟩ := Option.map_eq_some_iff.mp h
      cases heq
      obtain ⟨rfl, hsize⟩ := ih hcut
      exact ⟨rfl, by rw [size_cons]; omega⟩

theorem slice?_eq_some_iff {t w : Text} {start stop : Nat} :
    slice? t start stop = some w ↔
      ∃ a b, t = a ++ w ++ b ∧ size a = start ∧ size (a ++ w) = stop := by
  constructor
  · intro h
    obtain ⟨⟨front, b⟩, hfront, hback⟩ := Option.bind_eq_some_iff.mp h
    obtain ⟨⟨a, w'⟩, hcut, heq⟩ := Option.map_eq_some_iff.mp hback
    obtain rfl : w' = w := heq
    obtain ⟨rfl, hstop⟩ := eq_append_of_cutAt? hfront
    obtain ⟨rfl, hstart⟩ := eq_append_of_cutAt? hcut
    exact ⟨a, b, rfl, hstart, hstop⟩
  · rintro ⟨a, b, rfl, rfl, rfl⟩
    rw [slice?, cutAt?_size_append]
    exact congrArg (Option.map Prod.snd) (cutAt?_size_append a w)

example : slice? "aé".toList 1 2 = none ∧ slice? "aé".toList 1 3 = some ['é'] := by decide

end Utf8

/-- What can be out of range. -/
inductive Access
  /-- a token by its index, among so many -/
  | token (index count : Nat)
  /-- the stretch of a text between two byte offsets -/
  | slice (t : Text) (start stop : Nat)
  /-- a sum, a product or a power in numbers up to a limit -/
  | number (n limit : Nat)
  /-- a difference of numbers that are not negative -/
  | difference (a b : Nat)
  /-- a signed number of 64 bits -/
  | signed (n : Int)

def Access.InRange : Access → Prop
  | token index count => index < count
  | slice t start stop => start ≤ stop ∧ Utf8.IsBoundary t start ∧ Utf8.IsBoundary t stop
  | number n limit => n ≤ limit
  | difference a b => b ≤ a
  | signed n => Int64.minValue.toInt ≤ n ∧ n ≤ Int64.maxValue.toInt

/-- The result of a computation, if all went well, and the accesses made for it in their order. -/
structure Guarded (α : Type) where
  result : Option α
  accesses : List Access

namespace Guarded

variable {α β ε : Type}

instance : Monad Guarded where
  pure a := ⟨some a, []⟩
  bind m f := match m.result with
    | none => ⟨none, m.accesses⟩
    | some a => ⟨(f a).result, m.accesses ++ (f a).accesses⟩

def token (tokens : List Text) (index : Nat) : Guarded Text :=
  ⟨tokens[index]?, [.token index tokens.length]⟩

def slice (t : Text) (start stop : Nat) : Guarded Text :=
  ⟨Utf8.slice? t start stop, [.slice t start stop]⟩

def number (limit n : Nat) : Guarded Nat := ⟨if n ≤ limit then some n else none, [.number n limit]⟩

def difference (a b : Nat) : Guarded Nat :=
  ⟨if b ≤ a then some (a - b) else none, [.difference a b]⟩

def signed (n : Int) : Guarded Int :=
  ⟨if Int64.minValue.toInt ≤ n ∧ n ≤ Int64.maxValue.toInt then some n else none, [.signed n]⟩

/-- A computation with a result that made no access out of range. -/
structure Safe (m : Guarded α) (a : α) : Prop where
  result : m.result = some a
  inRange : ∀ access ∈ m.accesses, access.InRange

theorem safe_pure (a : α) : Safe (pure a) a := ⟨rfl, fun _ h => nomatch h⟩

theorem Safe.bind {m : Guarded α} {f : α → Guarded β} {a : α} {b : β} (hm : m.Safe a)
    (hf : (f a).Safe b) : (m >>= f).Safe b := by
  have hbind : m >>= f = ⟨(f a).result, m.accesses ++ (f a).accesses⟩ := by
    change (match m.result with
      | none => _
      | some a => _ : Guarded β) = _
    rw [hm.result]
  rw [hbind]
  exact ⟨hf.result, fun access h => (List.mem_append.mp h).elim (hm.inRange access)
    (hf.inRange access)⟩

theorem safe_token {tokens : List Text} {index : Nat} (h : index < tokens.length) :
    (token tokens index).Safe tokens[index] :=
  ⟨List.getElem?_eq_getElem h, by simpa [token, Access.InRange] using h⟩

theorem safe_slice {t a w b : Text} {start stop : Nat} (ht : t = a ++ w ++ b)
    (hstart : Utf8.size a = start) (hstop : Utf8.size (a ++ w) = stop) :
    (slice t start stop).Safe w := by
  refine ⟨Utf8.slice?_eq_some_iff.mpr ⟨a, b, ht, hstart, hstop⟩, ?_⟩
  have hle : start ≤ stop := by
    rw [Utf8.size_append] at hstop
    omega
  have hmove : t = a ++ (w ++ b) := by rw [ht, List.append_assoc]
  simp only [slice, List.mem_singleton, forall_eq]
  exact ⟨hle, ⟨a, w ++ b, hmove, hstart⟩, ⟨a ++ w, b, ht, hstop⟩⟩

theorem safe_number {limit n : Nat} (h : n ≤ limit) : (number limit n).Safe n :=
  ⟨if_pos h, by simpa [number, Access.InRange] using h⟩

theorem safe_difference {a b : Nat} (h : b ≤ a) : (difference a b).Safe (a - b) :=
  ⟨if_pos h, by simpa [difference, Access.InRange] using h⟩

theorem safe_signed {n : Int} (h : Int64.minValue.toInt ≤ n ∧ n ≤ Int64.maxValue.toInt) :
    (signed n).Safe n :=
  ⟨if_pos h, by simpa [signed, Access.InRange] using h⟩

theorem safe_mapM' {f : α → Guarded β} {g : α → β} {xs : List α}
    (h : ∀ x ∈ xs, (f x).Safe (g x)) : (xs.mapM' f).Safe (xs.map g) := by
  induction xs with
  | nil => exact safe_pure []
  | cons x xs ih =>
    obtain ⟨hx, hxs⟩ := List.forall_mem_cons.mp h
    exact hx.bind ((ih hxs).bind (safe_pure _))

/-- An access is made by the first of two computations, or by the second after the first. -/
theorem mem_accesses_bind {m : Guarded α} {f : α → Guarded β} {access : Access}
    (h : access ∈ (m >>= f).accesses) :
    access ∈ m.accesses ∨ ∃ a, m.result = some a ∧ access ∈ (f a).accesses := by
  obtain ⟨result, accesses⟩ := m
  cases result with
  | none => exact .inl h
  | some a => exact (List.mem_append.mp h).imp_right fun hf => ⟨a, rfl, hf⟩

section Faults

/-- After what is a fault nothing is done. -/
theorem Safe.bind_except {m : ExceptT ε Guarded α} {f : α → ExceptT ε Guarded β} {x : Except ε α}
    {g : α → Except ε β} (hm : m.run.Safe x) (hf : ∀ a, x = .ok a → (f a).run.Safe (g a)) :
    (m >>= f).run.Safe (x >>= g) := by
  cases x with
  | error e => exact hm.bind (safe_pure (Except.error e))
  | ok a => exact hm.bind (hf a rfl)

theorem Safe.bind_lift {m : Guarded α} {f : α → ExceptT ε Guarded β} {a : α} {x : Except ε β}
    (hm : m.Safe a) (hf : (f a).run.Safe x) :
    ((liftM m : ExceptT ε Guarded α) >>= f).run.Safe x :=
  Safe.bind_except (x := .ok a) (g := fun _ => x) (hm.bind (safe_pure _)) fun _ ha =>
    Except.ok.inj ha ▸ hf

theorem safe_bind_except {x : Except ε α} {f : α → ExceptT ε Guarded β} {g : α → Except ε β}
    (hf : ∀ a, x = .ok a → (f a).run.Safe (g a)) :
    ((liftM x : ExceptT ε Guarded α) >>= f).run.Safe (x >>= g) :=
  Safe.bind_except (safe_pure x) hf

end Faults

end Guarded
end TraceReport

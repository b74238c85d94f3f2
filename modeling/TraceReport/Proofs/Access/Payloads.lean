import TraceReport.Proofs.Access.Guarded
import TraceReport.Proofs.Payload.Splitting

namespace TraceReport

namespace Payload

theorem Scan.depth_step_le (s : Scan) (c : Char) : (s.step c).depth ≤ s.depth + 1 := by
  unfold Scan.step
  split_ifs
  all_goals first
    | exact Nat.le_succ _
    | exact Nat.le_refl _
    | exact Nat.le_succ_of_le (Nat.sub_le _ _)

section Sizes

variable (mark : Char) (t : Text)

theorem dropFront_sublist : (dropFront mark t).Sublist t := by
  unfold dropFront
  split
  · split
    · exact List.sublist_cons_self _ _
    · exact List.Sublist.refl _
  · exact List.Sublist.refl _

theorem dropBack_sublist : (dropBack mark t).Sublist t := by
  unfold dropBack
  split
  · exact List.dropLast_sublist t
  · exact List.Sublist.refl _

theorem unbraced_sublist : (unbraced t).Sublist t := by
  let opened := dropFront '\x7b' (Text.trim t)
  have hopened : opened.Sublist t := (dropFront_sublist _ _).trans (Text.trim_infix t).sublist
  have htrailing : (Text.trimEnd (Text.dropEndWhile (· == ',') opened)).Sublist opened :=
    (Text.dropEndWhile_sublist _ _).trans (Text.dropEndWhile_sublist _ _)
  exact (Text.trim_infix _).sublist.trans ((dropBack_sublist _ _).trans (htrailing.trans hopened))

end Sizes

end Payload

namespace Guarded

open Payload

section Split

variable (limit : Nat) (t : Text)

/-- Only a bracket that opens counts up; one that closes stops at zero. -/
def step (s : Scan) (c : Char) : Guarded Scan :=
  if !s.quoted && (c = '\x7b' || c = '[' || c = '(') then do
    let depth ← number limit (s.depth + 1)
    return { s with depth }
  else return s.step c

/-- Adds the field between two byte offsets, if it is not blank. -/
def push (done : List Field) (start stop : Nat) : Guarded (List Field) := do
  let stretch ← slice t start stop
  let body := Text.trimStart stretch
  let blanks ← difference (Utf8.size stretch) (Utf8.size body)
  let offset ← number limit (start + blanks)
  let text := Text.trimEnd body
  return if text.isEmpty then done else done ++ [⟨offset, text⟩]

/-- Goes on from a byte offset on, where a field has begun before. -/
def splitFrom (s : Scan) (done : List Field) (start offset : Nat) : Text → Guarded (List Field)
  | [] => push limit t done start (Utf8.size t)
  | c :: rest =>
    if s.separates c then do
      let done ← push limit t done start offset
      let start ← number limit (offset + 1)
      splitFrom s done start (offset + c.utf8Size) rest
    else do
      let s ← step limit s c
      splitFrom s done start (offset + c.utf8Size) rest

def split : Guarded (List Field) := splitFrom limit t .start [] 0 0 t

variable {limit : Nat} {t : Text}

theorem safe_step {s : Scan} (c : Char) (h : s.depth + 1 ≤ limit) :
    (step limit s c).Safe (s.step c) := by
  unfold step
  split
  case isTrue hopen =>
    simp only [Bool.and_eq_true, Bool.not_eq_true'] at hopen
    obtain ⟨hquoted, hopen⟩ := hopen
    have hquote : c ≠ '"' := by
      rintro rfl
      exact absurd hopen (by decide)
    have hstep : s.step c = { s with depth := s.depth + 1 } := by
      simp [Scan.step, hquoted, hquote, hopen]
    rw [hstep]
    exact (safe_number h).bind (safe_pure _)
  case isFalse => exact safe_pure _

theorem safe_push {before w behind : Text} (done : List Field) (ht : t = before ++ w ++ behind)
    (hlimit : Utf8.size t ≤ limit) :
    (push limit t done (Utf8.size before) (Utf8.size (before ++ w))).Safe
      (done ++ place (Utf8.size before) [w]) := by
  have hbody : Utf8.size (Text.trimStart w) ≤ Utf8.size w :=
    Utf8.size_le_of_sublist (List.dropWhile_sublist _)
  have hin : Utf8.size before + (Utf8.size w - Utf8.size (Text.trimStart w)) ≤ limit := by
    rw [ht, Utf8.size_append, Utf8.size_append] at hlimit
    omega
  have hplace : done ++ place (Utf8.size before) [w] =
      if (Text.trimEnd (Text.trimStart w)).isEmpty then done
      else done ++ [⟨Utf8.size before + (Utf8.size w - Utf8.size (Text.trimStart w)),
        Text.trimEnd (Text.trimStart w)⟩] := by
    rw [place]
    split
    case isTrue => rw [place, List.append_nil]
    case isFalse => rfl
  rw [hplace]
  exact (safe_slice ht rfl rfl).bind
    ((safe_difference hbody).bind ((safe_number hin).bind (safe_pure _)))

/-- The scan stands behind `w`, the part of the next field that it has passed. No more brackets are
open than bytes have been passed, so their number stays within that of the bytes. -/
theorem safe_splitFrom {before w rest : Text} {s : Scan} (done : List Field)
    (ht : t = before ++ w ++ rest) (hlimit : Utf8.size t ≤ limit)
    (hdepth : s.depth ≤ Utf8.size (before ++ w)) :
    (splitFrom limit t s done (Utf8.size before) (Utf8.size (before ++ w)) rest).Safe
      (done ++ place (Utf8.size before) ((stretches s rest).modifyHead (w ++ ·))) := by
  induction rest generalizing before w s done with
  | nil =>
    have hend : Utf8.size t = Utf8.size (before ++ w) := by rw [ht, List.append_nil]
    rw [splitFrom, stretches, List.modifyHead_cons, List.append_nil, hend]
    exact safe_push done ht hlimit
  | cons c rest ih =>
    have hpos : 0 < c.utf8Size := Char.utf8Size_pos c
    have hin : Utf8.size (before ++ w) + c.utf8Size ≤ limit := by
      rw [ht, Utf8.size_append (before ++ w), Utf8.size_cons] at hlimit
      omega
    rw [splitFrom]
    cases hsep : s.separates c with
    | true =>
      obtain rfl : c = ',' := by
        simp only [Scan.separates, Bool.and_eq_true, beq_iff_eq] at hsep
        exact hsep.2
      have hnext : Utf8.size (before ++ w ++ [',']) = Utf8.size (before ++ w) + 1 :=
        Utf8.size_append _ _
      have hlater := @ih (before ++ w ++ [',']) [] s (done ++ place (Utf8.size before) [w])
        (by simpa using ht) (by rw [List.append_nil]; omega)
      have hplace : done ++ place (Utf8.size before)
            ((stretches s (',' :: rest)).modifyHead (w ++ ·)) =
          done ++ place (Utf8.size before) [w] ++
            place (Utf8.size (before ++ w ++ [','])) ((stretches s rest).modifyHead ([] ++ ·)) := by
        obtain ⟨v, vs, hparts⟩ := List.exists_cons_of_ne_nil (stretches_ne_nil s rest)
        rw [stretches, if_pos hsep, List.modifyHead_cons, List.append_nil, place_cons_place, hnext,
          Utf8.size_append, hparts, List.modifyHead_cons, List.nil_append, List.append_assoc]
      rw [hplace]
      rw [List.append_nil, hnext] at hlater
      rw [hnext]
      exact (safe_push done ht hlimit).bind
        ((safe_number (Nat.le_trans (Nat.add_le_add_left hpos _) hin)).bind hlater)
    | false =>
      have hmove : before ++ (w ++ [c]) = before ++ w ++ [c] := (List.append_assoc ..).symm
      have hnext : Utf8.size (before ++ (w ++ [c])) = Utf8.size (before ++ w) + c.utf8Size := by
        rw [hmove, Utf8.size_append]
        rfl
      have hdepth' := s.depth_step_le c
      have hlater := @ih before (w ++ [c]) (s.step c) done (by simpa using ht) (by omega)
      have hstretches : (stretches s (c :: rest)).modifyHead (w ++ ·) =
          (stretches (s.step c) rest).modifyHead (w ++ [c] ++ ·) := by
        obtain ⟨v, vs, hparts⟩ := List.exists_cons_of_ne_nil (stretches_ne_nil (s.step c) rest)
        rw [stretches_cons hsep, hparts]
        simp
      rw [hstretches]
      rw [hnext] at hlater
      exact (safe_step c (by omega)).bind hlater

/-- A text within the limit is split within it. -/
theorem safe_split (h : Utf8.size t ≤ limit) : (split limit t).Safe (Payload.split t) := by
  have hscan := @safe_splitFrom limit t [] [] t .start [] rfl h (Nat.zero_le _)
  have hhead : (stretches .start t).modifyHead ([] ++ ·) = stretches .start t := by
    obtain ⟨w, ws, hparts⟩ := List.exists_cons_of_ne_nil (stretches_ne_nil .start t)
    rw [hparts]
    rfl
  rw [hhead] at hscan
  exact hscan

end Split

section Decoders

variable (limit : Nat)

def pairs (t : Text) : Guarded Payload := do
  let fields ← split limit (unbraced t)
  return Table.ofPairs (fields.filterMap fun field =>
    (pair? field.text).map fun (key, value) => (key, Text.unquote value))

/-- A payload that is more than a scope is split once more, out of its braces. -/
def plain (t : Text) : Guarded (Payload × Option Text) := do
  let inner := unbraced t
  match ← split limit inner with
  | [field] =>
    match pair? field.text with
    | some (key, value) =>
      if key = scopeKey then
        let scope := Text.trim (Text.unquote value)
        return ([(scopeKey, scope)], some (shortScope scope))
      else return (← pairs limit inner, none)
    | none => return (← pairs limit inner, none)
  | _ => return (← pairs limit inner, none)

/-- A double that is whole is cast to a signed number. -/
def realText (x : Binary64) : Guarded Text :=
  match x.integer? with
  | some n =>
    if n.natAbs < wholeLimit then do return Numeral.signed (← signed n)
    else return Payload.realText x
  | none => return Payload.realText x

def argumentText : Json → Guarded Text
  | .real x => realText x
  | other => return Payload.argumentText other

def members (json : Text) : Guarded (List (Text × Text)) :=
  match Json.read? json with
  | some (.object found) => found.mapM' fun (key, value) => do return (key, ← argumentText value)
  | _ => return []

/-- The value of a payload is cut out of the whole text. -/
def collect (inner : Text) (done : Payload) : List Field → Guarded Payload
  | [] => return done
  | field :: rest =>
    match pair? field.text with
    | none => collect inner done rest
    | some (key, value) =>
      if key = payloadKey then do
        let behind ← slice inner field.offset (Utf8.size inner)
        let raw := (pair? behind).elim [] Prod.snd
        return done.insertAll (← members (Text.unquote raw))
      else collect inner (done.insert key (Text.unquote value)) rest

def structured (t : Text) : Guarded Payload := do
  let inner := unbraced t
  collect inner [] (← split limit inner)

variable {limit : Nat} {t : Text}

theorem safe_split_unbraced (h : Utf8.size t ≤ limit) :
    (split limit (unbraced t)).Safe (Payload.split (unbraced t)) :=
  safe_split (Nat.le_trans (Utf8.size_le_of_sublist (unbraced_sublist t)) h)

theorem safe_pairs (h : Utf8.size t ≤ limit) : (pairs limit t).Safe (Payload.pairs t) := by
  have hsplit := safe_split_unbraced h
  unfold pairs Payload.pairs
  generalize unbraced t = inner at hsplit
  exact hsplit.bind (safe_pure _)

theorem safe_plain (h : Utf8.size t ≤ limit) : (plain limit t).Safe (Payload.plain t) := by
  have hpairs := safe_pairs (Nat.le_trans (Utf8.size_le_of_sublist (unbraced_sublist t)) h)
  have hsplit := safe_split_unbraced h
  unfold plain Payload.plain
  generalize unbraced t = inner at hpairs hsplit
  dsimp only
  refine hsplit.bind ?_
  cases Payload.split inner with
  | nil => exact hpairs.bind (safe_pure _)
  | cons field rest =>
    cases rest with
    | cons _ _ => exact hpairs.bind (safe_pure _)
    | nil =>
      dsimp only
      cases pair? field.text with
      | none => exact hpairs.bind (safe_pure _)
      | some pair =>
        dsimp only
        split
        · exact safe_pure _
        · exact hpairs.bind (safe_pure _)

theorem safe_realText (x : Binary64) : (realText x).Safe (Payload.realText x) := by
  unfold realText Payload.realText
  cases x.integer? with
  | none => exact safe_pure _
  | some n =>
    dsimp only
    split
    case isTrue hsmall =>
      have hlimit : wholeLimit < 2 ^ 63 := by decide
      have hmin : Int64.minValue.toInt = -2 ^ 63 := rfl
      have hmax : Int64.maxValue.toInt = 2 ^ 63 - 1 := rfl
      exact (safe_signed (by omega)).bind (safe_pure _)
    case isFalse => exact safe_pure _

theorem safe_argumentText (value : Json) :
    (argumentText value).Safe (Payload.argumentText value) := by
  cases value with
  | real x => exact safe_realText x
  | _ => exact safe_pure _

theorem safe_members (json : Text) : (members json).Safe (Payload.members json) := by
  have hnone : (pure [] : Guarded (List (Text × Text))).Safe [] := safe_pure []
  unfold members Payload.members
  cases Json.read? json with
  | none => exact hnone
  | some value =>
    cases value with
    | object found =>
      refine safe_mapM' fun pair _ => ?_
      exact (safe_argumentText pair.2).bind (safe_pure _)
    | _ => exact hnone

theorem safe_collect {inner : Text} {fields : List Field}
    (h : ∀ f ∈ fields, ∃ a b, inner = a ++ b ∧ f.offset = Utf8.size a) (done : Payload) :
    (collect inner done fields).Safe (Payload.collect inner done fields) := by
  induction fields generalizing done with
  | nil => exact safe_pure done
  | cons field rest ih =>
    obtain ⟨⟨a, b, rfl, hoffset⟩, hrest⟩ := List.forall_mem_cons.mp h
    rw [collect, Payload.collect]
    cases pair? field.text with
    | none => exact ih hrest done
    | some pair =>
      dsimp only
      split
      case isTrue =>
        have hbehind : (slice (a ++ b) field.offset (Utf8.size (a ++ b))).Safe
            (Utf8.dropBytes field.offset (a ++ b)) := by
          rw [hoffset, Utf8.dropBytes_size_append]
          exact safe_slice (b := []) (List.append_nil _).symm rfl rfl
        exact hbehind.bind ((safe_members _).bind (safe_pure _))
      case isFalse => exact ih hrest _

theorem safe_structured (h : Utf8.size t ≤ limit) :
    (structured limit t).Safe (Payload.structured t) := by
  have hlocated : Located [] (unbraced t) (Payload.split (unbraced t)) :=
    (Parted.of_stretches [] (unbraced t)).located
  unfold structured Payload.structured
  refine (safe_split_unbraced h).bind (safe_collect (fun f hf => ?_) [])
  obtain ⟨a, b, hinner, hoffset⟩ := hlocated.stands f hf
  exact ⟨a, f.text ++ b, by rw [hinner, List.append_assoc], hoffset⟩

end Decoders

end Guarded
end TraceReport

import TraceReport.Event
import TraceReport.Proofs.Json.Document

namespace TraceReport

open Json (Value memberValues memberValues_append)

namespace Event

/-- What the element of an event tells under a key; nothing for a part that is none. -/
def field? (e : Event) : (key : String) → Option Value
  | "cat" => some (.string e.category)
  | "pid" => some (.number e.pid)
  | "tid" => e.tid.map fun (tid : ThreadId) => .number tid
  | "ts" => e.time.map fun time => .string (Numeral.decimal time)
  | "ph" => some (.string [e.phase.letter])
  | "name" => some (.string e.name)
  | "id" => e.id.map fun (id : Int) => .number id
  | "s" => e.scope.map .string
  | "args" => e.arguments.map fun arguments => .object (memberValues arguments)
  | _ => none

section

variable {α : Type} (name : String) (encode : α → Json) (part : Option α)

theorem member_keys {members : List (Text × Value)} {keys : List Text}
    (h : (members.map Prod.fst).Sublist keys) :
    ((memberValues (member name encode part) ++ members).map Prod.fst).Sublist
      (name.toList :: keys) := by
  cases part with
  | none => exact h.cons _
  | some a => exact h.cons_cons _

theorem lookup_member (key : String) :
    (memberValues (member name encode part)).lookup key.toList =
      if key = name then part.map (fun a => (encode a).value) else none := by
  cases part with
  | none => simp [member, memberValues]
  | some a =>
    by_cases h : key = name
    · simp [member, memberValues, h]
    · have hne : (key.toList == name.toList) = false := by simpa [String.toList_inj] using h
      simp [member, memberValues, List.lookup_cons, h, hne]

end

/-- Every part of an element is one optional member, those that are always there included. -/
theorem toJson_eq (e : Event) : e.toJson = .object (
    member "cat" .string (some e.category) ++ (member "pid" .int (some e.pid) ++
    (member "tid" .int e.tid ++
    (member "ts" (fun time => .string (Numeral.decimal time)) e.time ++
    (member "ph" .string (some [e.phase.letter]) ++ (member "name" .string (some e.name) ++
    (member "id" .int e.id ++ (member "s" .string e.scope ++
    (member "args" .object e.arguments ++ []))))))))) := by
  simp [toJson, member]

/-- The element of an event is an object without a repeated key, and it holds what there is of
the event and nothing else. -/
theorem toJson_value (e : Event) : ∃ members, e.toJson.value = .object members ∧
    (members.map Prod.fst).Nodup ∧ ∀ key : String, members.lookup key.toList = e.field? key := by
  refine ⟨_, by rw [toJson_eq, Json.value], ?_, fun key => ?_⟩
  · have hkeys : (["cat", "pid", "tid", "ts", "ph", "name", "id", "s", "args"].map
        String.toList).Nodup := by decide
    refine List.Nodup.sublist ?_ hkeys
    simp only [memberValues_append]
    repeat refine member_keys _ _ _ ?_
    exact List.Sublist.slnil
  · simp only [memberValues_append, List.lookup_append, lookup_member]
    fun_cases field? e key
    all_goals simp_all [Json.value, memberValues]

end Event
end TraceReport

import TraceReport.Proofs.Clock
import TraceReport.Proofs.Conversion.Reading
import TraceReport.Proofs.Record

namespace TraceReport

theorem Log.micros?_of_mem {clock : Clock} {log : List Text} {record : Record}
    (h : record ∈ Log.records clock log) :
    clock.micros? record.header.stamp = some record.header.time := by
  obtain ⟨raw, -, hraw⟩ := Log.mem_records.mp h
  obtain ⟨dialect, tokens, hread⟩ := Line.read_of_record hraw
  exact Record.micros?_of_read hread

namespace Clock

/-- Trace time counts the full microseconds since an origin. Stamps with the same origin keep
their order, and the records of a log that is in order never go back in time unless the origin
changes between them. -/
theorem times_keep_order (clock : Clock) :
    (∀ a t, clock.micros? a = some t →
      t = ⌊(instant a - clock.origin a) * perSecond⌋₊) ∧
    (∀ a b t u, clock.micros? a = some t → clock.micros? b = some u →
      clock.origin a = clock.origin b → instant a ≤ instant b → t ≤ u) ∧
    ∀ log,
      let records := Log.records clock log
      records.Pairwise (fun r s => instant r.header.stamp ≤ instant s.header.stamp) →
      records.Pairwise (fun r s => clock.origin r.header.stamp = clock.origin s.header.stamp →
        r.header.time ≤ s.header.time) ∧
      ((∀ r ∈ records, ∀ s ∈ records,
        clock.origin r.header.stamp = clock.origin s.header.stamp) →
        (records.map (·.header.time)).Pairwise (· ≤ ·)) := by
  refine ⟨fun a t ha => micros?_eq_floor ha,
    fun a b t u ha hb horigin hle => micros?_mono ha hb horigin hle, ?_⟩
  intro log records hsorted
  have hkeep : records.Pairwise fun r s =>
      clock.origin r.header.stamp = clock.origin s.header.stamp →
        r.header.time ≤ s.header.time := by
    refine hsorted.imp_of_mem fun hr hs hle horigin => ?_
    exact micros?_mono (Log.micros?_of_mem hr) (Log.micros?_of_mem hs) horigin hle
  refine ⟨hkeep, fun hsame => List.pairwise_map.mpr ?_⟩
  exact hkeep.imp_of_mem fun hr hs hle => hle (hsame _ hr _ hs)

/-- A line of a user record that begins with a stamp. -/
def stampedLine (stamp : String) : Text :=
  stamp.toList ++ (" (+0.000001000) host pmtrace:message: \x7b cpu_id = 0 \x7d, ".toList ++
    "\x7b procname = \"App\", vpid = 100, vtid = 101 \x7d, \x7b text = \"a\" \x7d\n".toList)

/-- With a known boot, seconds go on counting past a full million. -/
theorem times_keep_order_after_boot :
    let clock : Clock := ⟨some 999000⟩
    let log := [stampedLine "[999999.75]", stampedLine "[1000000.0000019]"]
    clock.micros? "[999999.75]".toList = some 999750000 ∧
    clock.micros? "[1000000.0000019]".toList = some 1000000001 ∧
    clock.origin "[999999.75]".toList = clock.origin "[1000000.0000019]".toList ∧
    instant "[999999.75]".toList ≤ instant "[1000000.0000019]".toList ∧
    999750000 ≤ 1000000001 ∧
    (Log.records clock log).length = 2 ∧
    ((Log.records clock log).map (·.header.time)).Pairwise (· ≤ ·) := by
  intro clock log
  have hearly : clock.micros? "[999999.75]".toList = some 999750000 := by decide +kernel
  have hlate : clock.micros? "[1000000.0000019]".toList = some 1000000001 := by decide +kernel
  have horigin : clock.origin "[999999.75]".toList =
      clock.origin "[1000000.0000019]".toList := by decide +kernel
  have hle : instant "[999999.75]".toList ≤ instant "[1000000.0000019]".toList := by
    decide +kernel
  have hlength : (Log.records clock log).length = 2 := by decide +kernel
  have hsorted : (Log.records clock log).Pairwise
      fun r s => instant r.header.stamp ≤ instant s.header.stamp := by decide +kernel
  have hsame : ∀ r ∈ Log.records clock log, ∀ s ∈ Log.records clock log,
      clock.origin r.header.stamp = clock.origin s.header.stamp := by decide +kernel
  obtain ⟨-, hpair, hlog⟩ := times_keep_order clock
  exact ⟨hearly, hlate, horigin, hle, hpair _ _ _ _ hearly hlate horigin hle, hlength,
    (hlog log hsorted).2 hsame⟩

/-- Later stamps have later times. -/
def KeepsOrder (clock : Clock) : Prop :=
  ∀ a b t u, clock.micros? a = some t → clock.micros? b = some u → instant a ≤ instant b → t ≤ u

/-- Trace time starts again with every million seconds, and when the system boots. -/
theorem not_keepsOrder : ¬KeepsOrder ⟨none⟩ ∧ ¬KeepsOrder ⟨some 1000⟩ := by
  have hfold : ¬(999999000000 : Micros) ≤ 0 := by decide
  have hboot : ¬(999000000 : Micros) ≤ 0 := by decide
  refine ⟨fun h => hfold ?_, fun h => hboot ?_⟩
  · exact h "[999999.0]".toList "[1000000.0]".toList _ _ (by decide +kernel) (by decide +kernel)
      (by decide +kernel)
  · exact h "[999.0]".toList "[1000.0]".toList _ _ (by decide +kernel) (by decide +kernel)
      (by decide +kernel)

end Clock
end TraceReport

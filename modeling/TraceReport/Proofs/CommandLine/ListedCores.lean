import TraceReport.CommandLine.Program
import TraceReport.Proofs.Load.Following
import TraceReport.Proofs.Text.Utf8

namespace TraceReport.Program

/-- Each core that the system lists is followed by a load for the default number of cores. -/
def FollowsListed (tree : FileTree) : Prop :=
  ∀ (text : Text) (listed : List Core) (count : Nat), tree.readText coresFile = .ok text →
    Host.cores text = .ok listed → listed ≠ [] → coreCount tree = .ok count →
      ∀ core ∈ listed, ∀ (period : Nat) (before : List Load.Call),
        ((Load.new count period).calls before).1.Follows core

variable {tree : FileTree} {text : Text} {listed : List Core}

theorem coreCount_eq (hfile : tree.readText coresFile = .ok text)
    (hlist : Host.cores text = .ok listed) : coreCount tree = .ok (max listed.length 1) := by
  simp [coreCount, hfile, hlist]

/-- Where the system lists its cores, the default is their number. A load for so many cores follows
a listed core below that number and leaves out one that is not below it. So every listed core is
followed exactly when none of them is as great as their number. -/
theorem listed_cores_followed (hfile : tree.readText coresFile = .ok text)
    (hlist : Host.cores text = .ok listed) :
    ∃ count, coreCount tree = .ok count ∧ count = max listed.length 1 ∧
      (∀ core ∈ listed, ∀ (period : Nat) (before : List Load.Call),
        let load := ((Load.new count period).calls before).1
        (core < count → load.Follows core) ∧
        (count ≤ core → ∀ tid now, load.enter tid core now = load)) ∧
      (FollowsListed tree ↔ ∀ core ∈ listed, core < count) := by
  have hbounded (period : Nat) (before : List Load.Call) :=
    ((Load.new_bounded (max listed.length 1) period).calls before).1
  have hcount : max (max listed.length 1) 1 = max listed.length 1 :=
    max_eq_left (Nat.le_max_right _ _)
  simp only [hcount] at hbounded
  refine ⟨_, coreCount_eq hfile hlist, rfl, fun core _ period before => ⟨?_, ?_⟩, ?_, ?_⟩
  · exact (hbounded period before).follows
  · intro hcore tid now
    exact Load.enter_unknown ((hbounded period before).cores_eq.trans_le hcore) tid now
  · intro hall core hm
    by_contra hcore
    refine Load.not_follows_new (hcount.trans_le (Nat.not_lt.mp hcore)) 0 ?_
    exact hall text listed _ hfile hlist (List.ne_nil_of_mem hm) (coreCount_eq hfile hlist)
      core hm 0 []
  · intro hall text' listed' count hfile' hlist' _ hcount' core hm period before
    obtain rfl : text = text' := Except.ok.inj (hfile.symm.trans hfile')
    obtain rfl : listed = listed' := Except.ok.inj (hlist.symm.trans hlist')
    obtain rfl : _ = count := Except.ok.inj ((coreCount_eq hfile hlist).symm.trans hcount')
    exact (hbounded period before).follows (hall core hm)

/-- A system with no more than its list of cores. -/
def listing (list : Text) : FileTree where
  here := []
  entries := Table.ofPairs
    ((coresFile.names.dropLast.inits.tail.map fun place => (place, .directory)) ++
      [(coresFile.names, .file (Utf8.encode list))])

theorem readText_listing (list : Text) : (listing list).readText coresFile = .ok list := by
  have hplace : (listing list).openAt coresFile = .ok coresFile.names := rfl
  have hcontent : (listing list).contentAt coresFile.names = .ok (Utf8.encode list) := rfl
  simp only [FileTree.readText, hplace, hcontent, bind, Except.bind, Utf8.decode?_encode]

/-- A system with two groups of four cores: cores of the first are followed, the others are not. -/
theorem listed_cores_followed_two_groups :
    ∃ count, coreCount (listing "0-3,8-11\n".toList) = .ok count ∧
      ∀ (period : Nat) (before : List Load.Call),
        let load := ((Load.new count period).calls before).1
        load.Follows 3 ∧ ∀ tid now, load.enter tid 8 now = load := by
  obtain ⟨count, hcount, heq, hcores, -⟩ := listed_cores_followed (readText_listing _)
    (by decide : Host.cores "0-3,8-11\n".toList = .ok [0, 1, 2, 3, 8, 9, 10, 11])
  refine ⟨count, hcount, fun period before => ⟨?_, ?_⟩⟩
  · exact (hcores 3 (by decide) period before).1 (by rw [heq]; decide)
  · exact (hcores 8 (by decide) period before).2 (by rw [heq]; decide)

/-- The second of two groups of cores is not followed. -/
theorem not_followsListed : ¬FollowsListed (listing "0-3,8-11".toList) := by
  intro h
  have hlist : Host.cores "0-3,8-11".toList = .ok [0, 1, 2, 3, 8, 9, 10, 11] := by decide
  have hfollowed := h _ _ _ (readText_listing _) hlist (by decide)
    (coreCount_eq (readText_listing _) hlist) 8 (by decide) 1000 []
  exact Load.not_follows_new (by decide) 1000 hfollowed

end TraceReport.Program

import TraceReport.Proofs.Settings.Shape
import TraceReport.Proofs.Track.Groups

namespace TraceReport.Settings

open Shape (Keyed Reader)
open Shape.Fields (Independent commute_field declared fill)

/-- A condition of a rule may be null or left out. -/
inductive Condition : Option Json → Option Text → Prop
  | missing : Condition none none
  | null : Condition (some .null) none
  | text (t : Text) : Condition (some (.string t)) (some t)

def IsRule (j : Json) (rule : IgnoreRule) : Prop :=
  ∃ process provider, Keyed ["process", "provider"] j [process, provider] ∧
    Condition process rule.process ∧ Condition provider rule.provider

def IsToggle (j : Json) (enabled : Bool) : Prop := Keyed ["enable"] j [some (.bool enabled)]

def IsLane (j : Json) (lane : LaneSettings) : Prop :=
  Keyed ["process", "physical", "logical"] j
    [some (.string lane.process), some (.string lane.physical), some (.string lane.logical)]

def IsGroup (j : Json) (group : GroupSettings) : Prop :=
  ∃ lanes, Keyed ["name", "enable", "catapultEvents"] j
      [some (.string group.name), some (.bool group.enabled), some (.array lanes)] ∧
    List.Forall₂ IsLane lanes group.lanes

def IsGroupView (j : Json) (view : GroupViewSettings) : Prop :=
  ∃ groups, Keyed ["enable", "groups"] j [some (.bool view.enabled), some (.array groups)] ∧
    List.Forall₂ IsGroup groups view.groups

/-- A value in which nothing is missing or of the wrong type, and the settings that it gives. -/
def Describes (j : Json) (settings : Settings) : Prop :=
  ∃ rules user groups cpu,
    Keyed ["catapultIgnoreEvents", "catapultUserView", "catapultGroupView", "catapultCPUView"] j
      [some (.array rules), some user, some groups, some cpu] ∧
    List.Forall₂ IsRule rules settings.ignoreRules ∧ IsToggle user settings.userView ∧
    IsGroupView groups settings.groupView ∧ IsToggle cpu settings.cpuView

/-- A reader takes values, with orderly objects, for what they are, and takes no others. -/
def Reads {α : Type} (read : Reader α) (Is : Json → α → Prop) : Prop :=
  ∀ {j : Json}, j.Orderly → ∀ {a : α}, read j = .ok a ↔ Is j a

section Readers

theorem bool_eq_ok_iff {j : Json} {b : Bool} : Shape.bool j = .ok b ↔ j = .bool b := by
  cases j <;> simp [Shape.bool]

theorem text_eq_ok_iff {j : Json} {t : Text} : Shape.text j = .ok t ↔ j = .string t := by
  cases j <;> simp [Shape.text]

theorem optional_text_eq_ok_iff {j : Json} {held : Option Text} :
    Shape.optional Shape.text j = .ok held ↔ Condition (some j) held := by
  constructor
  · intro h
    cases j with
    | null =>
      cases h
      exact .null
    | string s =>
      cases h
      exact .text s
    | bool _ | int _ | real _ | array _ | object _ => cases h
  · rintro (_ | _ | _) <;> rfl

theorem condition_none_iff {held : Option Text} : Condition none held ↔ none = held := by
  constructor
  · rintro ⟨⟩
    rfl
  · rintro rfl
    exact .missing

theorem reads_list {α : Type} {read : Reader α} {Is : Json → α → Prop} (h : Reads read Is) :
    Reads (Shape.list read) fun j as => ∃ items, j = .array items ∧ List.Forall₂ Is items as := by
  intro j hj as
  cases hj with
  | @array items hitems =>
    have hitem (item : Json) (a : α) :
        item.Orderly ∧ read item = .ok a ↔ item.Orderly ∧ Is item a :=
      and_congr_right fun horderly => h horderly
    have hiff : List.Forall₂ (fun item a => read item = .ok a) items as ↔
        List.Forall₂ Is items as := by
      rw [← and_iff_right (b := List.Forall₂ _ items as) hitems, ← List.forall₂_and_left]
      simp only [hitem, List.forall₂_and_left, and_iff_right hitems]
    simpa [Shape.list, mapM_eq_ok_iff] using hiff
  | _ => simp [Shape.list]

end Readers

section Records

theorem ignoreRule_independent : Independent ignoreRule.fields where
  keys := by decide
  commute := by simp [ignoreRule, commute_field]

theorem toggle_independent : Independent toggle.fields where
  keys := by decide
  commute := by simp [toggle]

theorem lane_independent : Independent lane.fields where
  keys := by decide
  commute := by simp [lane, commute_field]

theorem group_independent : Independent group.fields where
  keys := by decide
  commute := by simp [group, commute_field]

theorem groupViewShape_independent : Independent groupViewShape.fields where
  keys := by decide
  commute := by simp [groupViewShape, commute_field]

theorem shape_independent : Independent shape.fields where
  keys := by decide
  commute := by simp [shape, commute_field]

theorem reads_ignoreRule : Reads ignoreRule.read IsRule := by
  rintro j hj ⟨p, q⟩
  rw [ignoreRule.read_eq_ok_iff ignoreRule_independent hj]
  have hvalues (x y : Option Json) :
      ((declared ignoreRule.fields [x, y]).foldlM fill ignoreRule.blank >>= ignoreRule.whole) =
        .ok ⟨p, q⟩ ↔ Condition x p ∧ Condition y q := by
    rcases x with _ | x <;> rcases y with _ | y <;>
      simp [ignoreRule, bind_eq_ok_iff, map_eq_ok_iff, optional_text_eq_ok_iff,
        condition_none_iff, and_comm]
  constructor
  · rintro ⟨values, hkeyed, h⟩
    obtain ⟨x, y, rfl⟩ := List.length_eq_two.mp hkeyed.length_eq
    exact ⟨x, y, hkeyed, (hvalues x y).mp h⟩
  · rintro ⟨x, y, hkeyed, h⟩
    exact ⟨_, hkeyed, (hvalues x y).mpr h⟩

theorem reads_toggle : Reads toggle.read IsToggle := by
  intro j hj b
  rw [toggle.read_eq_ok_iff toggle_independent hj]
  have hvalues (x : Option Json) :
      ((declared toggle.fields [x]).foldlM fill toggle.blank >>= toggle.whole) = .ok b ↔
        x = some (.bool b) := by
    rcases x with _ | x <;> simp [toggle, bind_eq_ok_iff, map_eq_ok_iff, bool_eq_ok_iff,
      -Bool.exists_bool]
  constructor
  · rintro ⟨values, hkeyed, h⟩
    obtain ⟨x, rfl⟩ := List.length_eq_one_iff.mp hkeyed.length_eq
    obtain rfl := (hvalues x).mp h
    exact hkeyed
  · intro hkeyed
    exact ⟨_, hkeyed, (hvalues _).mpr rfl⟩

theorem reads_lane : Reads lane.read IsLane := by
  rintro j hj ⟨p, q, r⟩
  rw [lane.read_eq_ok_iff lane_independent hj]
  have hvalues (x y z : Option Json) :
      ((declared lane.fields [x, y, z]).foldlM fill lane.blank >>= lane.whole) = .ok ⟨p, q, r⟩ ↔
        x = some (.string p) ∧ y = some (.string q) ∧ z = some (.string r) := by
    rcases x with _ | x <;> rcases y with _ | y <;> rcases z with _ | z <;>
      simp [lane, bind_eq_ok_iff, map_eq_ok_iff, text_eq_ok_iff]
  constructor
  · rintro ⟨values, hkeyed, h⟩
    obtain ⟨x, y, z, rfl⟩ := List.length_eq_three.mp hkeyed.length_eq
    obtain ⟨rfl, rfl, rfl⟩ := (hvalues x y z).mp h
    exact hkeyed
  · intro hkeyed
    exact ⟨_, hkeyed, (hvalues _ _ _).mpr ⟨rfl, rfl, rfl⟩⟩

theorem reads_group : Reads group.read IsGroup := by
  rintro j hj ⟨name, enabled, lanes⟩
  rw [group.read_eq_ok_iff group_independent hj]
  have hvalues (x y z : Option Json) :
      ((declared group.fields [x, y, z]).foldlM fill group.blank >>= group.whole) =
        .ok ⟨name, enabled, lanes⟩ ↔ x = some (.string name) ∧ y = some (.bool enabled) ∧
          ∃ v, z = some v ∧ Shape.list lane.read v = .ok lanes := by
    rcases x with _ | x <;> rcases y with _ | y <;> rcases z with _ | z <;>
      simp [group, bind_eq_ok_iff, map_eq_ok_iff, text_eq_ok_iff, bool_eq_ok_iff,
        -Bool.exists_bool]
  have hlanes {x y z : Json}
      (hkeyed : Keyed (group.fields.map Prod.fst) j [some x, some y, some z]) :
      Shape.list lane.read z = .ok lanes ↔
        ∃ items, z = .array items ∧ List.Forall₂ IsLane items lanes :=
    reads_list reads_lane (hkeyed.orderly hj (by simp))
  constructor
  · rintro ⟨values, hkeyed, h⟩
    obtain ⟨x, y, z, rfl⟩ := List.length_eq_three.mp hkeyed.length_eq
    obtain ⟨rfl, rfl, v, rfl, hread⟩ := (hvalues x y z).mp h
    obtain ⟨items, rfl, hitems⟩ := (hlanes hkeyed).mp hread
    exact ⟨items, hkeyed, hitems⟩
  · rintro ⟨items, hkeyed, hitems⟩
    have hread := (hlanes hkeyed).mpr ⟨items, rfl, hitems⟩
    exact ⟨_, hkeyed, (hvalues _ _ _).mpr ⟨rfl, rfl, _, rfl, hread⟩⟩

theorem reads_groupViewShape : Reads groupViewShape.read IsGroupView := by
  rintro j hj ⟨enabled, groups⟩
  rw [groupViewShape.read_eq_ok_iff groupViewShape_independent hj]
  have hvalues (x y : Option Json) :
      ((declared groupViewShape.fields [x, y]).foldlM fill groupViewShape.blank >>=
        groupViewShape.whole) = .ok ⟨enabled, groups⟩ ↔ x = some (.bool enabled) ∧
          ∃ v, y = some v ∧ Shape.list group.read v = .ok groups := by
    rcases x with _ | x <;> rcases y with _ | y <;>
      simp [groupViewShape, bind_eq_ok_iff, map_eq_ok_iff, bool_eq_ok_iff, -Bool.exists_bool]
  have hgroups {x y : Json}
      (hkeyed : Keyed (groupViewShape.fields.map Prod.fst) j [some x, some y]) :
      Shape.list group.read y = .ok groups ↔
        ∃ items, y = .array items ∧ List.Forall₂ IsGroup items groups :=
    reads_list reads_group (hkeyed.orderly hj (by simp))
  constructor
  · rintro ⟨values, hkeyed, h⟩
    obtain ⟨x, y, rfl⟩ := List.length_eq_two.mp hkeyed.length_eq
    obtain ⟨rfl, v, rfl, hread⟩ := (hvalues x y).mp h
    obtain ⟨items, rfl, hitems⟩ := (hgroups hkeyed).mp hread
    exact ⟨items, hkeyed, hitems⟩
  · rintro ⟨items, hkeyed, hitems⟩
    have hread := (hgroups hkeyed).mpr ⟨items, rfl, hitems⟩
    exact ⟨_, hkeyed, (hvalues _ _).mpr ⟨rfl, _, rfl, hread⟩⟩

theorem reads_shape : Reads shape.read Describes := by
  rintro j hj ⟨rules, user, view, cpu⟩
  rw [shape.read_eq_ok_iff shape_independent hj]
  have hvalues (x y z w : Option Json) :
      ((declared shape.fields [x, y, z, w]).foldlM fill shape.blank >>= shape.whole) =
        .ok ⟨rules, user, view, cpu⟩ ↔
        (∃ v, x = some v ∧ Shape.list ignoreRule.read v = .ok rules) ∧
          (∃ v, y = some v ∧ toggle.read v = .ok user) ∧
          (∃ v, z = some v ∧ groupViewShape.read v = .ok view) ∧
          ∃ v, w = some v ∧ toggle.read v = .ok cpu := by
    rcases x with _ | x <;> rcases y with _ | y <;> rcases z with _ | z <;>
      rcases w with _ | w <;> simp [shape, bind_eq_ok_iff, map_eq_ok_iff, -Bool.exists_bool]
  have hparts {x y z w : Json}
      (hkeyed : Keyed (shape.fields.map Prod.fst) j [some x, some y, some z, some w]) :
      (Shape.list ignoreRule.read x = .ok rules ↔
        ∃ items, x = .array items ∧ List.Forall₂ IsRule items rules) ∧
      (toggle.read y = .ok user ↔ IsToggle y user) ∧
      (groupViewShape.read z = .ok view ↔ IsGroupView z view) ∧
      (toggle.read w = .ok cpu ↔ IsToggle w cpu) :=
    have horderly {v : Json} := hkeyed.orderly hj (v := v)
    ⟨reads_list reads_ignoreRule (horderly (by simp)), reads_toggle (horderly (by simp)),
      reads_groupViewShape (horderly (by simp)), reads_toggle (horderly (by simp))⟩
  constructor
  · rintro ⟨values, hkeyed, h⟩
    match values, hkeyed.length_eq with
    | [x, y, z, w], _ =>
      obtain ⟨⟨v, rfl, hx⟩, ⟨_, rfl, hy⟩, ⟨_, rfl, hz⟩, _, rfl, hw⟩ := (hvalues x y z w).mp h
      obtain ⟨hrules, huser, hview, hcpu⟩ := hparts hkeyed
      obtain ⟨items, rfl, hitems⟩ := hrules.mp hx
      exact ⟨items, _, _, _, hkeyed, hitems, huser.mp hy, hview.mp hz, hcpu.mp hw⟩
  · rintro ⟨items, _, _, _, hkeyed, hitems, hy, hz, hw⟩
    obtain ⟨hrules, huser, hview, hcpu⟩ := hparts hkeyed
    exact ⟨_, hkeyed, (hvalues _ _ _ _).mpr ⟨⟨_, rfl, hrules.mpr ⟨items, rfl, hitems⟩⟩,
      ⟨_, rfl, huser.mpr hy⟩, ⟨_, rfl, hview.mpr hz⟩, _, rfl, hcpu.mpr hw⟩⟩

end Records

section Names

variable {settings : Settings} {name : Text}

theorem groupEnabled?_eq_some_iff (h : (settings.groupView.groups.map (·.name)).Nodup) {b : Bool} :
    settings.groupEnabled? name = some b ↔
      ∃ group ∈ settings.groupView.groups, group.name = name ∧ group.enabled = b := by
  simp only [groupEnabled?, Option.map_eq_some_iff,
    find?_key_eq_some_iff (fun group : GroupSettings => group.name) h, and_assoc]

theorem groupEnabled?_eq_none_iff :
    settings.groupEnabled? name = none ↔ name ∉ settings.groupView.groups.map (·.name) := by
  simp [groupEnabled?]

theorem mem_enabledGroups_iff :
    name ∈ settings.enabledGroups.map (·.name) ↔
      ∃ group ∈ settings.groupView.groups, group.name = name ∧ group.enabled = true := by
  simp only [enabledGroups, List.mem_map, List.mem_filter, and_assoc]
  exact exists_congr fun group => and_congr_right fun _ => and_comm

end Names

/-- Texts are settings exactly if nothing is missing in them or of the wrong type, and all groups
have names, each its own. In such settings a name finds the one group that has it. -/
theorem parse_exact (path text : Text) :
    (∀ settings, parse path text = .ok settings ↔ ∃ j, Json.IsDocument text j ∧
      Describes j settings ∧ (∀ group ∈ settings.groupView.groups, group.name ≠ []) ∧
      (settings.groupView.groups.map (·.name)).Nodup) ∧
    ∀ settings, parse path text = .ok settings → ∀ name,
      (∀ b, settings.groupEnabled? name = some b ↔ ∃ group,
        (settings.groupView.groups.filter fun group => group.name == name) = [group] ∧
          group.enabled = b) ∧
      (settings.groupEnabled? name = none ↔
        name ∉ settings.groupView.groups.map (·.name)) ∧
      (settings.groupEnabled? name = some true ↔
        name ∈ settings.enabledGroups.map (·.name)) := by
  constructor
  · intro settings
    rw [parse_eq_ok_iff]
    apply exists_congr
    intro j
    rw [Json.read?_eq_some_iff]
    apply and_congr_right
    intro hdocument
    rw [reads_shape hdocument.orderly, nameFault?_eq_none_iff]
    simp
  · intro settings hparse name
    have hnames := groups_nodup_of_parse hparse
    refine ⟨fun b => ?_, groupEnabled?_eq_none_iff, ?_⟩
    · simp only [groupEnabled?_eq_some_iff hnames, and_assoc,
        filter_key_eq_singleton_iff (fun group : GroupSettings => group.name) hnames]
    · rw [groupEnabled?_eq_some_iff hnames, mem_enabledGroups_iff]

/-- Settings of which the user view is written as an array, as is one of the groups. A rule has a
null, and a key comes twice. -/
def mixedText : Text :=
  "\x7b\"catapultUserView\":[true],\"other\":[1],\"catapultCPUView\":\x7b\"enable\":0,".toList ++
    "\"enable\":false\x7d,\"catapultIgnoreEvents\":[\x7b\"provider\":\"noisy\",".toList ++
    "\"process\":null\x7d],\"catapultGroupView\":\x7b\"groups\":[[\"Off\",false,[]],".toList ++
    "\x7b\"name\":\"Input\",\"enable\":true,\"catapultEvents\":[[\"A\",\"touch\",".toList ++
    "\"Touch\"]]\x7d],\"enable\":true\x7d\x7d".toList

def mixedSettings : Settings where
  ignoreRules := [⟨none, some "noisy".toList⟩]
  userView := true
  groupView := ⟨true, [⟨"Off".toList, false, []⟩,
    ⟨"Input".toList, true, [⟨"A".toList, "touch".toList, "Touch".toList⟩]⟩]⟩
  cpuView := false

theorem parse_exact_mixed :
    parse [] mixedText = .ok mixedSettings ∧
    (∃ j, Json.IsDocument mixedText j ∧ Describes j mixedSettings) ∧
    mixedSettings.groupEnabled? "Input".toList = some true ∧
    mixedSettings.groupEnabled? "Off".toList = some false ∧
    mixedSettings.groupEnabled? "Touch".toList = none := by
  have hparse : parse [] mixedText = .ok mixedSettings :=
    toOption_eq_some_iff.mp (by decide +kernel)
  obtain ⟨hexact, hnames⟩ := parse_exact [] mixedText
  obtain ⟨j, hdocument, hdescribes, -⟩ := (hexact _).mp hparse
  refine ⟨hparse, ⟨j, hdocument, hdescribes⟩, ?_, ?_, ?_⟩
  · exact (hnames _ hparse _).2.2.mpr (by decide)
  · exact ((hnames _ hparse _).1 false).mpr ⟨_, rfl, rfl⟩
  · exact (hnames _ hparse _).2.1.mpr (by decide)

end TraceReport.Settings

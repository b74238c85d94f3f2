import TraceReport.Proofs.Json.Document
import TraceReport.Proofs.Json.Scalars

namespace TraceReport.Json

section Space

variable {spaces t rest : Text}

theorem skipSpace_append (h : Spaces spaces) (t : Text) : skipSpace (spaces ++ t) = skipSpace t :=
  List.dropWhile_append_of_pos h

theorem exists_spaces (t : Text) : ∃ spaces, Spaces spaces ∧ t = spaces ++ skipSpace t :=
  ⟨t.takeWhile isSpace, fun _ hc => List.mem_takeWhile_imp hc,
    List.takeWhile_append_dropWhile.symm⟩

theorem Spaces.ends (h : Spaces spaces) (hr : Ends rest) : Ends (spaces ++ rest) := by
  cases spaces with
  | nil => exact hr
  | cons c spaces =>
    rintro d ⟨rfl⟩
    have hc : isSpace c = true := h c List.mem_cons_self
    have hspace : c = ' ' ∨ c = '\t' ∨ c = '\n' ∨ c = '\r' := by
      simpa [isSpace, or_assoc] using hc
    rcases hspace with rfl | rfl | rfl | rfl <;> decide

/-- Space before a value is not read. -/
theorem value?_spaces (h : Spaces spaces) (fuel depth : Nat) (t : Text) :
    Json.value? fuel depth (spaces ++ t) = Json.value? fuel depth t := by
  cases fuel with
  | zero => rfl
  | succ n => rw [Json.value?, Json.value?, skipSpace_append h]

theorem items?_skipSpace (fuel depth : Nat) (done : List Json) (t : Text) :
    Json.items? fuel depth done (skipSpace t) = Json.items? fuel depth done t := by
  obtain ⟨spaces, hspaces, ht⟩ := exists_spaces t
  cases fuel with
  | zero => rfl
  | succ n =>
    conv_rhs => rw [ht]
    rw [Json.items?, Json.items?, value?_spaces hspaces]

theorem members?_skipSpace (fuel depth : Nat) (done : Table Text Json) (t : Text) :
    Json.members? fuel depth done (skipSpace t) = Json.members? fuel depth done t := by
  obtain ⟨spaces, hspaces, ht⟩ := exists_spaces t
  cases fuel with
  | zero => rfl
  | succ n =>
    conv_rhs => rw [ht]
    rw [Json.members?, Json.members?, skipSpace_append hspaces]

end Space

section Opening

variable {depth : Nat} {t : Text} {j : Json}

theorem Spells.opens (h : Spells depth t j) : ∃ c w, t = c :: w ∧ Opens c := by
  have hplain : ∀ c ∈ ['n', 't', 'f', '"', '[', '\x7b'], Opens c := by
    intro c hc
    simp only [List.mem_cons, List.not_mem_nil, or_false] at hc
    rcases hc with rfl | rfl | rfl | rfl | rfl | rfl <;> exact ⟨by decide, by decide⟩
  cases h with
  | null => exact ⟨'n', _, rfl, hplain _ (by simp)⟩
  | bool b =>
    cases b with
    | true => exact ⟨'t', _, rfl, hplain _ (by simp)⟩
    | false => exact ⟨'f', _, rfl, hplain _ (by simp)⟩
  | number hvalid htext hj =>
    obtain ⟨c, w, ht, hc⟩ := hvalid.head?_written htext
    exact ⟨c, w, ht, opens_of_literal hc⟩
  | string h => exact ⟨'"', _, rfl, hplain _ (by simp)⟩
  | emptyArray h | array h => exact ⟨'[', _, rfl, hplain _ (by simp)⟩
  | emptyObject h | object h => exact ⟨'\x7b', _, rfl, hplain _ (by simp)⟩

theorem Items.opens {items : List Json} (h : Items depth t items) (rest : Text) :
    ∃ c w, skipSpace (t ++ rest) = c :: w ∧ c ≠ ']' := by
  have helement {t : Text} {j : Json} (h : Element depth t j) (rest : Text) :
      ∃ c w, skipSpace (t ++ rest) = c :: w ∧ c ≠ ']' := by
    obtain ⟨hbefore, hvalue, hafter⟩ := h
    obtain ⟨c, w, rfl, hc⟩ := hvalue.opens
    rw [List.append_assoc, List.append_assoc, skipSpace_append hbefore, List.cons_append,
      skipSpace_cons hc.space]
    exact ⟨c, _, rfl, hc.bracket⟩
  cases h with
  | last h => exact helement h rest
  | more h hrest =>
    rw [List.append_assoc]
    exact helement h _

theorem Members.opens {members : List (Text × Json)} (h : Members depth t members) (rest : Text) :
    ∃ w, skipSpace (t ++ rest) = '"' :: w := by
  have hmember {t : Text} {member : Text × Json} (h : Member depth t member) (rest : Text) :
      ∃ w, skipSpace (t ++ rest) = '"' :: w := by
    obtain ⟨hbefore, -, -, -⟩ := h
    simp only [List.append_assoc, List.cons_append]
    rw [skipSpace_append hbefore, skipSpace_cons (by decide)]
    exact ⟨_, rfl⟩
  cases h with
  | last h => exact hmember h rest
  | more h hrest =>
    rw [List.append_assoc]
    exact hmember h _

/-- A literal is no word. -/
theorem scalar?_literal {c : Char} (hc : c = '-' ∨ c.isDigit = true) (w : Text) :
    scalar? (c :: w) = number? (c :: w) := by
  have hword : c ≠ 't' ∧ c ≠ 'f' ∧ c ≠ 'n' := by
    rcases hc with rfl | hc
    · decide
    · refine ⟨?_, ?_, ?_⟩ <;> rintro rfl <;> exact absurd hc (by decide)
  unfold scalar?
  split
  · simp_all
  · simp_all
  · simp_all
  · rfl

theorem value?_scalar {fuel : Nat} {c : Char} (hspace : isSpace c = false)
    (hc : c ≠ '"' ∧ c ≠ '[' ∧ c ≠ '\x7b') (w : Text) :
    Json.value? (fuel + 1) depth (c :: w) = scalar? (c :: w) := by
  rw [Json.value?, skipSpace_cons hspace]
  split
  · simp_all
  · simp_all
  · simp_all
  · rfl

end Opening

section Complete

/-- A value that is spelled is read, with this much fuel. -/
def ReadsValues (fuel : Nat) : Prop :=
  ∀ {depth t j}, Spells depth t j → 2 * t.length ≤ fuel → ∀ {rest}, Ends rest →
    Json.value? fuel depth (t ++ rest) = some (j, rest)

def ReadsItems (fuel : Nat) : Prop :=
  ∀ {depth t items}, Items depth t items → 2 * t.length + 1 ≤ fuel → ∀ done rest,
    Json.items? fuel depth done (t ++ ']' :: rest) = some (.array (done.reverse ++ items), rest)

def ReadsMembers (fuel : Nat) : Prop :=
  ∀ {depth t members}, Members depth t members → 2 * t.length + 1 ≤ fuel → ∀ done rest,
    Json.members? fuel depth done (t ++ '\x7d' :: rest) =
      some (.object (done.insertAll members), rest)

variable {n depth : Nat} {t rest : Text} {j : Json}

/-- An element is read up to the space after it. -/
theorem ReadsValues.element (hn : ReadsValues n) (h : Element depth t j) (hlen : 2 * t.length ≤ n)
    (hr : Ends rest) : ∃ after, Json.value? n depth (t ++ rest) = some (j, after) ∧
      skipSpace after = skipSpace rest := by
  obtain ⟨hbefore, hvalue, hafter⟩ := h
  simp only [List.length_append] at hlen
  have hread := hn hvalue (by omega) (hafter.ends hr)
  refine ⟨_, ?_, skipSpace_append hafter rest⟩
  rw [List.append_assoc, List.append_assoc, value?_spaces hbefore, hread]

theorem readsItems_succ (hvalue : ReadsValues n) (hitems : ReadsItems n) : ReadsItems (n + 1) := by
  intro depth t items h hlen done rest
  cases h with
  | last h =>
    have hends := ends_cons (c := ']') (by simp) rest
    obtain ⟨after, hread, hafter⟩ := hvalue.element h (by omega) hends
    rw [skipSpace_cons (by decide)] at hafter
    rw [Json.items?, hread]
    simp [hafter]
  | more h hrest =>
    simp only [List.length_append, List.length_cons] at hlen
    obtain ⟨after, hread, hafter⟩ := hvalue.element h (by omega) (ends_cons (c := ',') (by simp) _)
    rw [skipSpace_cons (by decide)] at hafter
    rw [List.append_assoc, List.cons_append, Json.items?, hread]
    simp only [hafter]
    rw [hitems hrest (by omega)]
    simp

/-- A member is read and then what follows it. -/
theorem ReadsValues.member (hn : ReadsValues n) {key : Text} (h : Member depth t (key, j))
    (hlen : 2 * t.length ≤ n) (hr : Ends rest) (done : Table Text Json) :
    Json.members? (n + 1) depth done (t ++ rest) = match skipSpace rest with
      | ',' :: rest => Json.members? n depth (done.insert key j) rest
      | '\x7d' :: rest => some (.object (done.insert key j), rest)
      | _ => none := by
  obtain @⟨_, before, quoted, _, between, value, _, hbefore, hkey, hbetween, hvalue⟩ := h
  simp only [List.length_append, List.length_cons] at hlen
  obtain ⟨after, hread, hafter⟩ := hn.element hvalue (by omega) hr
  have htext : before ++ '"' :: quoted ++ '"' :: between ++ ':' :: value ++ rest =
      before ++ '"' :: (quoted ++ '"' :: (between ++ ':' :: (value ++ rest))) := by simp
  have hquoted : string? .character [] (quoted ++ '"' :: (between ++ ':' :: (value ++ rest))) =
      some (key, between ++ ':' :: (value ++ rest)) := string?_characters hkey []
  have hcolon : skipSpace (between ++ ':' :: (value ++ rest)) = ':' :: (value ++ rest) := by
    rw [skipSpace_append hbetween, skipSpace_cons (by decide)]
  rw [htext, Json.members?, skipSpace_append hbefore, skipSpace_cons (by decide)]
  simp only [hquoted, hcolon, hread]
  exact hafter ▸ rfl

theorem readsMembers_succ (hvalue : ReadsValues n) (hmembers : ReadsMembers n) :
    ReadsMembers (n + 1) := by
  intro depth t members h hlen done rest
  cases h with
  | @last _ _ member h =>
    rw [hvalue.member h (by omega) (ends_cons (by simp) rest), skipSpace_cons (by decide)]
    rfl
  | @more _ t later member members h hrest =>
    simp only [List.length_append, List.length_cons] at hlen
    rw [List.append_assoc, List.cons_append,
      hvalue.member h (by omega) (ends_cons (by simp) _), skipSpace_cons (by decide)]
    exact hmembers hrest (by omega) _ rest

theorem readsValues_succ (hitems : ReadsItems n) (hmembers : ReadsMembers n) :
    ReadsValues (n + 1) := by
  intro depth t j h hlen rest hr
  cases h with
  | null => exact value?_scalar (by decide) (by decide) _
  | bool b =>
    cases b with
    | true => exact value?_scalar (by decide) (by decide) _
    | false => exact value?_scalar (by decide) (by decide) _
  | number hvalid htext hj =>
    have hread := number?_written hvalid htext hj hr
    obtain ⟨c, w, rfl, hc⟩ := hvalid.head?_written htext
    have hnot : c ≠ '"' ∧ c ≠ '[' ∧ c ≠ '\x7b' := by
      rcases hc with rfl | hc
      · decide
      · refine ⟨?_, ?_, ?_⟩ <;> rintro rfl <;> exact absurd hc (by decide)
    rw [List.cons_append, value?_scalar (opens_of_literal hc).space hnot, scalar?_literal hc]
    exact hread
  | @string _ t s h =>
    have hquoted : string? .character [] (t ++ '"' :: rest) = some (s, rest) :=
      string?_characters h []
    have htext : '"' :: t ++ ['"'] ++ rest = '"' :: (t ++ '"' :: rest) := by simp
    rw [htext, Json.value?, skipSpace_cons (by decide)]
    simp only [hquoted, Option.map_some]
  | @emptyArray depth spaces h =>
    have htext : '[' :: spaces ++ [']'] ++ rest = '[' :: (spaces ++ ']' :: rest) := by simp
    have hclosed : skipSpace (spaces ++ ']' :: rest) = ']' :: rest := by
      rw [skipSpace_append h, skipSpace_cons (by decide)]
    rw [htext, Json.value?, skipSpace_cons (by decide)]
    simp [hclosed]
  | @array depth t items h =>
    have htext : '[' :: t ++ [']'] ++ rest = '[' :: (t ++ ']' :: rest) := by simp
    simp only [List.length_append, List.length_cons, List.length_nil] at hlen
    have hread := hitems h (by omega) [] rest
    obtain ⟨c, w, hopen, hc⟩ := h.opens (']' :: rest)
    rw [← items?_skipSpace, hopen] at hread
    rw [htext, Json.value?, skipSpace_cons (by decide)]
    simp only [Nat.add_eq_zero_iff, one_ne_zero, and_false, if_false, hopen]
    split
    case h_1 later heq => exact absurd (List.cons.inj heq).1 hc
    case h_2 => exact hread
  | @emptyObject depth spaces h =>
    have htext : '\x7b' :: spaces ++ ['\x7d'] ++ rest = '\x7b' :: (spaces ++ '\x7d' :: rest) := by
      simp
    have hclosed : skipSpace (spaces ++ '\x7d' :: rest) = '\x7d' :: rest := by
      rw [skipSpace_append h, skipSpace_cons (by decide)]
    rw [htext, Json.value?, skipSpace_cons (by decide)]
    simp [hclosed]
  | @object depth t members h =>
    have htext : '\x7b' :: t ++ ['\x7d'] ++ rest = '\x7b' :: (t ++ '\x7d' :: rest) := by simp
    simp only [List.length_append, List.length_cons, List.length_nil] at hlen
    have hread := hmembers h (by omega) [] rest
    obtain ⟨w, hopen⟩ := h.opens ('\x7d' :: rest)
    rw [← members?_skipSpace, hopen] at hread
    rw [htext, Json.value?, skipSpace_cons (by decide)]
    simp only [Nat.add_eq_zero_iff, one_ne_zero, and_false, if_false, hopen]
    exact hread

theorem reads (fuel : Nat) : ReadsValues fuel ∧ ReadsItems fuel ∧ ReadsMembers fuel := by
  induction fuel with
  | zero =>
    refine ⟨?_, ?_, ?_⟩
    · intro depth t j h hlen
      obtain ⟨c, w, rfl, -⟩ := h.opens
      simp at hlen
    · intro depth t items h hlen
      omega
    · intro depth t members h hlen
      omega
  | succ n ih =>
    obtain ⟨hvalue, hitems, hmembers⟩ := ih
    exact ⟨readsValues_succ hitems hmembers, readsItems_succ hvalue hitems,
      readsMembers_succ hvalue hmembers⟩

end Complete

section Sound

/-- A value that is read is spelled, after space. -/
def ValuesSpelled (fuel : Nat) : Prop :=
  ∀ {depth t j rest}, Json.value? fuel depth t = some (j, rest) →
    ∃ before front, Spaces before ∧ Spells depth front j ∧ t = before ++ front ++ rest

def ItemsSpelled (fuel : Nat) : Prop :=
  ∀ {depth done t j rest}, Json.items? fuel depth done t = some (j, rest) →
    ∃ front items, Items depth front items ∧ j = .array (done.reverse ++ items) ∧
      t = front ++ ']' :: rest

def MembersSpelled (fuel : Nat) : Prop :=
  ∀ {depth done t j rest}, Json.members? fuel depth done t = some (j, rest) →
    ∃ front members, Members depth front members ∧ j = .object (done.insertAll members) ∧
      t = front ++ '\x7d' :: rest

variable {n depth : Nat} {t rest : Text} {j : Json}

theorem spells_of_scalar? (h : scalar? t = some (j, rest)) :
    ∃ front, Spells depth front j ∧ t = front ++ rest := by
  unfold scalar? at h
  split at h
  case h_1 =>
    obtain ⟨rfl, rfl⟩ := Prod.mk.inj (Option.some.inj h)
    exact ⟨_, .bool true, rfl⟩
  case h_2 =>
    obtain ⟨rfl, rfl⟩ := Prod.mk.inj (Option.some.inj h)
    exact ⟨_, .bool false, rfl⟩
  case h_3 =>
    obtain ⟨rfl, rfl⟩ := Prod.mk.inj (Option.some.inj h)
    exact ⟨_, .null, rfl⟩
  case h_4 =>
    obtain ⟨l, front, hv, hfront, hj, rfl⟩ := eq_append_of_number? h
    exact ⟨front, .number hv hfront hj, rfl⟩

/-- What is read up to a mark is an element. -/
theorem ValuesSpelled.element (hn : ValuesSpelled n) {after : Text}
    (h : Json.value? n depth t = some (j, after)) :
    ∃ front, Element depth front j ∧ t = front ++ skipSpace after := by
  obtain ⟨before, front, hbefore, hfront, rfl⟩ := hn h
  obtain ⟨spaces, hspaces, hafter⟩ := exists_spaces after
  refine ⟨before ++ front ++ spaces, .spaced hbefore hfront hspaces, ?_⟩
  conv_lhs => rw [hafter]
  simp

theorem itemsSpelled_succ (hvalue : ValuesSpelled n) (hitems : ItemsSpelled n) :
    ItemsSpelled (n + 1) := by
  intro depth done t j rest h
  rw [Json.items?] at h
  split at h
  case h_1 => simp at h
  case h_2 item after hread =>
    obtain ⟨front, hfront, rfl⟩ := hvalue.element hread
    split at h
    case h_1 more hmore =>
      obtain ⟨front', items, hitems, rfl, rfl⟩ := hitems h
      exact ⟨front ++ ',' :: front', item :: items, .more hfront hitems, by simp, by simp [hmore]⟩
    case h_2 more hmore =>
      obtain ⟨rfl, rfl⟩ := Prod.mk.inj (Option.some.inj h)
      exact ⟨front, [item], .last hfront, by simp, by rw [hmore]⟩
    case h_3 => simp at h

/-- Of members that are read the first is spelled, and the others are read after it. -/
theorem ValuesSpelled.member (hn : ValuesSpelled n) {done : Table Text Json} {r : Json × Text}
    (h : Json.members? (n + 1) depth done t = some r) :
    ∃ front key item left, Member depth front (key, item) ∧ t = front ++ left ∧
      (match left with
      | ',' :: rest => Json.members? n depth (done.insert key item) rest
      | '\x7d' :: rest => some (.object (done.insert key item), rest)
      | _ => none) = some r := by
  obtain ⟨before, hbefore, ht⟩ := exists_spaces t
  rw [Json.members?] at h
  split at h
  case h_2 => simp at h
  case h_1 quoted hquoted =>
    split at h
    case h_1 => simp at h
    case h_2 key afterKey hkey =>
      obtain ⟨text, s, rfl, htext, rfl⟩ := exists_characters hkey
      obtain ⟨between, hbetween, hafterKey⟩ := exists_spaces afterKey
      split at h
      case h_2 => simp at h
      case h_1 beforeValue hcolon =>
        split at h
        case h_1 => simp at h
        case h_2 item after hread =>
          obtain ⟨front, hfront, rfl⟩ := hn.element hread
          rw [hcolon] at hafterKey
          rw [hquoted, hafterKey] at ht
          exact ⟨_, _, item, skipSpace after, .keyed hbefore htext hbetween hfront,
            by rw [ht]; simp, h⟩

theorem membersSpelled_succ (hvalue : ValuesSpelled n) (hmembers : MembersSpelled n) :
    MembersSpelled (n + 1) := by
  intro depth done t j rest h
  obtain ⟨front, key, item, left, hmember, rfl, hleft⟩ := hvalue.member h
  split at hleft
  case h_1 more =>
    obtain ⟨front', members, hmore, rfl, rfl⟩ := hmembers hleft
    exact ⟨front ++ ',' :: front', (key, item) :: members, .more hmember hmore, rfl, by simp⟩
  case h_2 more =>
    obtain ⟨rfl, rfl⟩ := Prod.mk.inj (Option.some.inj hleft)
    exact ⟨front, [(key, item)], .last hmember, rfl, rfl⟩
  case h_3 => simp at hleft

theorem valuesSpelled_succ (hitems : ItemsSpelled n) (hmembers : MembersSpelled n) :
    ValuesSpelled (n + 1) := by
  intro depth t j rest h
  obtain ⟨before, hbefore, ht⟩ := exists_spaces t
  have hspelled {front : Text} (hfront : Spells depth front j)
      (hskip : skipSpace t = front ++ rest) :
      ∃ before front, Spaces before ∧ Spells depth front j ∧ t = before ++ front ++ rest :=
    ⟨before, front, hbefore, hfront, by rw [List.append_assoc, ← hskip, ← ht]⟩
  rw [Json.value?] at h
  split at h
  case h_1 quoted hquoted =>
    obtain ⟨⟨s, left⟩, hs, heq⟩ := Option.map_eq_some_iff.mp h
    obtain ⟨rfl, rfl⟩ := Prod.mk.inj heq
    obtain ⟨text, s, rfl, htext, rfl⟩ := exists_characters hs
    exact hspelled (.string htext) (by rw [hquoted]; simp)
  case h_2 more hmore =>
    split_ifs at h with hdepth
    obtain ⟨d, rfl⟩ := Nat.exists_eq_succ_of_ne_zero hdepth
    obtain ⟨spaces, hspaces, hinner⟩ := exists_spaces more
    split at h
    case h_1 left hclosed =>
      obtain ⟨rfl, rfl⟩ := Prod.mk.inj (Option.some.inj h)
      exact hspelled (.emptyArray hspaces) (by rw [hmore, hinner, hclosed]; simp)
    case h_2 =>
      rw [items?_skipSpace] at h
      obtain ⟨front, items, hfront, rfl, rfl⟩ := hitems h
      exact hspelled (.array hfront) (by rw [hmore]; simp)
  case h_3 more hmore =>
    split_ifs at h with hdepth
    obtain ⟨d, rfl⟩ := Nat.exists_eq_succ_of_ne_zero hdepth
    obtain ⟨spaces, hspaces, hinner⟩ := exists_spaces more
    split at h
    case h_1 left hclosed =>
      obtain ⟨rfl, rfl⟩ := Prod.mk.inj (Option.some.inj h)
      exact hspelled (.emptyObject hspaces) (by rw [hmore, hinner, hclosed]; simp)
    case h_2 =>
      rw [members?_skipSpace] at h
      obtain ⟨front, members, hfront, rfl, rfl⟩ := hmembers h
      exact hspelled (.object hfront) (by rw [hmore]; simp)
  case h_4 =>
    obtain ⟨front, hfront, hscalar⟩ := spells_of_scalar? h
    exact hspelled hfront hscalar

theorem spelled (fuel : Nat) : ValuesSpelled fuel ∧ ItemsSpelled fuel ∧ MembersSpelled fuel := by
  induction fuel with
  | zero =>
    refine ⟨?_, ?_, ?_⟩
    · intro depth t j rest h
      simp [Json.value?] at h
    · intro depth done t j rest h
      simp [Json.items?] at h
    · intro depth done t j rest h
      simp [Json.members?] at h
  | succ n ih =>
    obtain ⟨hvalue, hitems, hmembers⟩ := ih
    exact ⟨valuesSpelled_succ hitems hmembers, itemsSpelled_succ hvalue hitems,
      membersSpelled_succ hvalue hmembers⟩

end Sound

/-- Texts are read as what they spell, and nothing else is read. -/
theorem read?_eq_some_iff {t : Text} {j : Json} : Json.read? t = some j ↔ IsDocument t j := by
  unfold Json.read? IsDocument
  constructor
  · intro h
    split at h
    case h_1 value rest hread =>
      split_ifs at h with hrest
      obtain rfl := Option.some.inj h
      obtain ⟨front, hfront, rfl⟩ := ValuesSpelled.element (spelled _).1 hread
      rw [List.isEmpty_iff.mp hrest, List.append_nil]
      exact hfront
    case h_2 => simp at h
  · intro h
    have hfuel : 2 * t.length ≤ fuelFor t := by
      unfold fuelFor
      omega
    obtain ⟨after, hread, hafter⟩ := ReadsValues.element (reads (fuelFor t)).1 h hfuel ends_nil
    rw [List.append_nil] at hread
    have hempty : (skipSpace after).isEmpty = true := by
      rw [hafter]
      rfl
    rw [hread]
    exact if_pos hempty

/-- An object has each of its keys once, in their order. -/
theorem IsDocument.ordered {t : Text} {members : List (Text × Json)}
    (h : IsDocument t (.object members)) : Table.Ordered members := by
  obtain ⟨-, hvalue, -⟩ := h
  cases hvalue with
  | number hvalid htext hj => nomatch hj
  | emptyObject => exact List.Pairwise.nil
  | object => exact Table.ordered_insertAll List.Pairwise.nil _

/-- A value whose objects, at every depth, have each key once and in order. -/
inductive Orderly : Json → Prop
  | null : Orderly .null
  | bool (b : Bool) : Orderly (.bool b)
  | int (n : Int) : Orderly (.int n)
  | real (x : Binary64) : Orderly (.real x)
  | string (s : Text) : Orderly (.string s)
  | array {items : List Json} (h : ∀ item ∈ items, Orderly item) : Orderly (.array items)
  | object {members : List (Text × Json)} (ho : Table.Ordered members)
      (h : ∀ member ∈ members, Orderly member.2) : Orderly (.object members)

mutual

theorem Spells.orderly {depth : Nat} {t : Text} {j : Json} : Spells depth t j → Orderly j
  | .null => .null
  | .bool b => .bool b
  | .number _ _ (.int _) => .int _
  | .number _ _ (.real _ _) => .real _
  | .string _ => .string _
  | .emptyArray _ => .array (by simp)
  | .array h => .array h.orderly
  | .emptyObject _ => .object List.Pairwise.nil (by simp)
  | .object h => .object (Table.ordered_insertAll List.Pairwise.nil _) fun member hm =>
      h.orderly member (Table.mem_of_mem_ofPairs hm)

theorem Element.orderly {depth : Nat} {t : Text} {j : Json} : Element depth t j → Orderly j
  | .spaced _ h _ => h.orderly

theorem Items.orderly {depth : Nat} {t : Text} {items : List Json} :
    Items depth t items → ∀ item ∈ items, Orderly item
  | .last h => List.forall_mem_singleton.mpr h.orderly
  | .more h hrest => List.forall_mem_cons.mpr ⟨h.orderly, hrest.orderly⟩

theorem Member.orderly {depth : Nat} {t : Text} {member : Text × Json} :
    Member depth t member → Orderly member.2
  | .keyed _ _ _ h => h.orderly

theorem Members.orderly {depth : Nat} {t : Text} {members : List (Text × Json)} :
    Members depth t members → ∀ member ∈ members, Orderly member.2
  | .last h => List.forall_mem_singleton.mpr h.orderly
  | .more h hrest => List.forall_mem_cons.mpr ⟨h.orderly, hrest.orderly⟩

end

/-- What a text spells is orderly. -/
theorem IsDocument.orderly {t : Text} {j : Json} (h : IsDocument t j) : Orderly j :=
  Element.orderly h

end TraceReport.Json

import TraceReport.Payload
import TraceReport.Proofs.Text.Words

namespace TraceReport

namespace Text

/-- A word of a text, with what stands before and behind it. -/
structure IsWordOf (t before word behind : Text) : Prop where
  eq : t = before ++ word ++ behind
  isWord : IsWord word
  opens : ∀ c ∈ before.getLast?, isBlank c = true
  closes : ∀ c ∈ behind.head?, isBlank c = true

theorem IsWordOf.words_eq {t before word behind : Text} (h : IsWordOf t before word behind) :
    words t = words before ++ word :: words behind := by
  obtain ⟨rfl, hword, hopens, hcloses⟩ := h
  have hnil : words [] = [] := rfl
  have hback : words (word ++ behind) = word :: words behind := by
    cases behind with
    | nil => rw [List.append_nil, words_of_isWord hword, hnil]
    | cons c behind =>
      have hc : isBlank c = true := hcloses c rfl
      have hcons : words (c :: behind) = words behind := words_append_blank hc [] behind
      rw [words_append_blank hc, words_of_isWord hword, hcons, List.singleton_append]
  rw [List.append_assoc, ← hback]
  rcases List.eq_nil_or_concat before with rfl | ⟨front, c, rfl⟩
  · rfl
  · have hc : isBlank c = true := hopens c (by simp)
    rw [List.concat_eq_append, List.append_assoc, List.singleton_append, words_append_blank hc,
      words_append_blank hc, hnil, List.append_nil]

/-- The last place where a text is mentioned. -/
theorem exists_last_infix {sought t : Text} (hne : sought ≠ []) (h : sought <:+: t) :
    ∃ a b, t = a ++ sought ++ b ∧ ¬sought <:+: b := by
  induction t with
  | nil => exact absurd (List.infix_nil.mp h) hne
  | cons c t ih =>
    by_cases hlater : sought <:+: t
    · obtain ⟨a, b, rfl, hb⟩ := ih hlater
      exact ⟨c :: a, b, rfl, hb⟩
    · obtain ⟨b, hb⟩ := (List.infix_cons_iff.mp h).resolve_right hlater
      refine ⟨[], b, hb.symm, fun hagain => hlater (hagain.trans ?_)⟩
      obtain ⟨d, rest, rfl⟩ := List.exists_cons_of_ne_nil hne
      obtain ⟨-, rfl⟩ := List.cons.inj hb
      exact (List.suffix_append rest b).isInfix

/-- Text without blanks is mentioned within a word; the last such word. -/
theorem exists_isWordOf {sought t : Text} (hsought : IsWord sought) (h : sought <:+: t) :
    ∃ before word behind, IsWordOf t before word behind ∧ sought <:+: word ∧
      ¬sought <:+: behind := by
  obtain ⟨a, b, rfl, hb⟩ := exists_last_infix hsought.1 h
  obtain ⟨head, ha, hhead⟩ := exists_append_dropEndWhile (fun c => !isBlank c) a
  have hback := List.takeWhile_append_dropWhile (p := fun c => !isBlank c) (l := b)
  refine ⟨dropEndWhile (fun c => !isBlank c) a, head ++ sought ++ b.takeWhile fun c => !isBlank c,
    b.dropWhile fun c => !isBlank c, ⟨?_, ⟨?_, ?_⟩, fun c hc => ?_, fun c hc => ?_⟩,
    ⟨head, _, rfl⟩, fun hmore => hb (hmore.trans (List.dropWhile_suffix _).isInfix)⟩
  · conv_lhs => rw [ha, ← hback]
    simp only [List.append_assoc]
  · simp [hsought.1]
  · have hfront : Solid head := fun c hc => by simpa using hhead c hc
    have hrest : Solid (b.takeWhile fun c => !isBlank c) := fun c hc => by
      simpa using List.mem_takeWhile_imp hc
    exact solid_append.mpr ⟨solid_append.mpr ⟨hfront, hsought.2⟩, hrest⟩
  · simpa using getLast?_dropEndWhile (fun c => !isBlank c) a c hc
  · have hfirst := List.head?_dropWhile_not (fun c => !isBlank c) b
    rw [Option.mem_def.mp hc] at hfirst
    simpa using hfirst

end Text

namespace Payload

/-- The stretches of a text between its marks. A mark is the first that begins after the one before
it, so of three colons it is the first two. -/
inductive Marked : Text → List Text → Prop
  | last {w : Text} (hw : ¬scopeMark <:+: w) : Marked w [w]
  | more {w rest : Text} {ws : List Text} (hw : ¬scopeMark <:+: w ++ [':'])
      (hrest : Marked rest ws) : Marked (w ++ scopeMark ++ rest) (w :: ws)

section

variable {t : Text}

/-- Two characters tell whether a mark begins. -/
theorem scopeMark_prefix_iff {c : Char} {w : Text} :
    scopeMark <+: c :: (w ++ scopeMark ++ t) ↔ scopeMark <+: c :: (w ++ [':']) := by
  cases w with
  | nil => simp [scopeMark]
  | cons d w => simp [scopeMark]

theorem not_mark_cons {c : Char} (h : ∀ later, c = ':' → t = ':' :: later → False) :
    ¬scopeMark <+: c :: t := by
  rintro ⟨later, hlater⟩
  obtain ⟨rfl, rfl⟩ := List.cons.inj hlater
  exact h later rfl rfl

theorem joinScopes_cons {c : Char} (h : ¬scopeMark <+: c :: t) :
    joinScopes (c :: t) = c :: joinScopes t := by
  rw [joinScopes]
  rintro rest rfl rfl
  exact h ⟨rest, rfl⟩

/-- Up to its first mark a text stays as it is. -/
theorem joinScopes_append {w : Text} (hw : ¬scopeMark <:+: w ++ [':']) :
    joinScopes (w ++ scopeMark ++ t) = w ++ '_' :: joinScopes t := by
  induction w with
  | nil => rfl
  | cons c w ih =>
    have hlater : ¬scopeMark <:+: w ++ [':'] := fun h => hw (List.infix_cons h)
    have hfirst : ¬scopeMark <+: c :: (w ++ scopeMark ++ t) := fun h =>
      hw (scopeMark_prefix_iff.mp h).isInfix
    rw [List.cons_append, List.cons_append, joinScopes_cons hfirst, ih hlater, List.cons_append]

theorem joinScopes_of_unmarked (h : ¬scopeMark <:+: t) : joinScopes t = t := by
  induction t with
  | nil => rfl
  | cons c t ih =>
    rw [joinScopes_cons fun hfirst => h hfirst.isInfix, ih fun hlater => h (List.infix_cons hlater)]

end

/-- The marks of a text are written as underscores. -/
theorem Marked.joinScopes_eq {t : Text} {ws : List Text} (h : Marked t ws) :
    joinScopes t = Text.joinWith ['_'] ws := by
  induction h with
  | last hw => rw [joinScopes_of_unmarked hw, Text.joinWith_singleton]
  | @more w rest ws hw hrest ih =>
    have hne : ws ≠ [] := by cases hrest <;> exact List.cons_ne_nil _ _
    rw [joinScopes_append hw, ih, Text.joinWith_cons _ _ hne, List.append_assoc,
      List.singleton_append]

/-- A character that begins no mark belongs to the first stretch. -/
theorem Marked.cons {c : Char} {t : Text} {ws : List Text} (hc : ¬scopeMark <+: c :: t)
    (h : Marked t ws) : Marked (c :: t) (ws.modifyHead (c :: ·)) := by
  cases h with
  | last hw => exact .last fun hmark => (List.infix_cons_iff.mp hmark).elim hc hw
  | @more w rest ws hw hrest =>
    rw [scopeMark_prefix_iff] at hc
    have hlonger : ¬scopeMark <:+: c :: w ++ [':'] := fun hmark =>
      (List.infix_cons_iff.mp hmark).elim hc hw
    exact .more hlonger hrest

theorem exists_marked (t : Text) : ∃ ws, Marked t ws := by
  induction t using joinScopes.induct with
  | case1 rest ih =>
    obtain ⟨ws, hws⟩ := ih
    have hempty : ¬scopeMark <:+: [] ++ [':'] := by decide
    exact ⟨[] :: ws, .more hempty hws⟩
  | case2 c rest hpair ih =>
    obtain ⟨ws, hws⟩ := ih
    exact ⟨_, hws.cons (not_mark_cons hpair)⟩
  | case3 => exact ⟨[[]], .last (by decide)⟩

theorem Marked.two_le_length {t : Text} {ws : List Text} (h : Marked t ws)
    (hmark : scopeMark <:+: t) : 2 ≤ ws.length := by
  cases h with
  | last hw => exact absurd hmark hw
  | more hw hrest =>
    cases hrest with
    | last | more =>
      rw [List.length_cons, List.length_cons]
      omega

theorem head?_joinScopes {t : Text} (h : (joinScopes t).head? = some ':') : t.head? = some ':' := by
  unfold joinScopes at h
  split at h
  case h_1 => simp at h
  case h_2 => exact h
  case h_3 => simp at h

/-- No mark is left. -/
theorem not_infix_joinScopes (t : Text) : ¬scopeMark <:+: joinScopes t := by
  induction t using joinScopes.induct with
  | case1 rest ih =>
    have hplain : ¬scopeMark <+: '_' :: joinScopes rest := fun h =>
      absurd (List.cons_prefix_cons.mp h).1 (by decide)
    exact fun h => (List.infix_cons_iff.mp h).elim hplain ih
  | case2 c rest hpair ih =>
    have hplain := not_mark_cons hpair
    rw [joinScopes_cons hplain]
    refine fun h => (List.infix_cons_iff.mp h).elim (fun hfirst => hplain ?_) ih
    obtain ⟨rfl, more, hnext⟩ := List.cons_prefix_cons.mp hfirst
    have hhead : rest.head? = some ':' := head?_joinScopes (by rw [← hnext]; rfl)
    obtain ⟨later, rfl⟩ := List.head?_eq_some_iff.mp hhead
    exact ⟨later, rfl⟩
  | case3 => decide

theorem joinScopes_subset {t : Text} {c : Char} (h : c ∈ joinScopes t) : c = '_' ∨ c ∈ t := by
  induction t using joinScopes.induct with
  | case1 rest ih =>
    rw [joinScopes, List.mem_cons] at h
    rcases h with rfl | hrest
    · exact .inl rfl
    · exact (ih hrest).imp_right fun hm => List.mem_cons_of_mem _ (List.mem_cons_of_mem _ hm)
  | case2 d rest hpair ih =>
    rw [joinScopes_cons (not_mark_cons hpair), List.mem_cons] at h
    rcases h with rfl | hrest
    · exact .inr List.mem_cons_self
    · exact (ih hrest).imp_right (List.mem_cons_of_mem d)
  | case3 => simp [joinScopes] at h

section Named

variable {s front rest : Text}

theorem shortScope_of_unmarked (h : ¬scopeMark <:+: s) : shortScope s = s := by
  have hplain : (!s.mentions scopeMark) = true := by simpa [← Text.mentions_iff_infix] using h
  rw [shortScope, if_pos hplain]

/-- The part of a scope before its parameters, which begin with the first parenthesis. -/
def IsFront (s front : Text) : Prop :=
  ∃ rest, s = front ++ rest ∧ '(' ∉ front ∧ ∀ c ∈ rest.head?, c = '('

theorem IsFront.takeWhile_eq (h : IsFront s front) : s.takeWhile (· != '(') = front := by
  obtain ⟨rest, rfl, hplain, hstops⟩ := h
  have hfront : ∀ c ∈ front, (c != '(') = true := fun c hc => by
    rw [bne_iff_ne]
    rintro rfl
    exact hplain hc
  rw [List.takeWhile_append_of_pos hfront]
  cases rest with
  | nil => rw [List.takeWhile_nil, List.append_nil]
  | cons c rest =>
    have hc : (c != '(') = false := by simpa using hstops c rfl
    rw [List.takeWhile_cons, hc, if_neg Bool.false_ne_true, List.append_nil]

theorem shortScope_of_marked (hfront : IsFront s front) (h : scopeMark <:+: s) :
    shortScope s = joinScopes
      (((Text.words front).filter fun word => word.mentions scopeMark).getLast?.getD
        (Text.trim front)) := by
  have hmarked : ¬(!s.mentions scopeMark) = true := by simpa [← Text.mentions_iff_infix] using h
  rw [shortScope, if_neg hmarked, hfront.takeWhile_eq]

theorem filter_words_eq_nil {t : Text} (h : ¬scopeMark <:+: t) :
    ((Text.words t).filter fun word => word.mentions scopeMark) = [] := by
  refine List.filter_eq_nil_iff.mpr fun word hword hmark => h ?_
  rw [Text.words_eq] at hword
  exact (Text.mentions_iff_infix.mp hmark).trans
    (Text.infix_of_mem_splitOnP (List.mem_filter.mp hword).1)

/-- Where only the parameters have marks, the name is what stands before them. -/
theorem shortScope_of_unqualified (hfront : IsFront s front) (h : scopeMark <:+: s)
    (hplain : ¬scopeMark <:+: front) : shortScope s = Text.trim front := by
  rw [shortScope_of_marked hfront h, filter_words_eq_nil hplain, List.getLast?_nil,
    Option.getD_none,
    joinScopes_of_unmarked fun hmark => hplain (hmark.trans (Text.trim_infix front))]

/-- The name comes from the last word before the parameters that has a mark. -/
theorem shortScope_of_isWordOf (hfront : IsFront s front) {before word behind : Text}
    (hword : Text.IsWordOf front before word behind) (hmark : scopeMark <:+: word)
    (hlast : ¬scopeMark <:+: behind) : shortScope s = joinScopes word := by
  have hwhole : scopeMark <:+: s := by
    obtain ⟨rest, rfl, -⟩ := hfront
    have hfront : scopeMark <:+: front := hmark.trans ⟨before, behind, hword.eq.symm⟩
    exact hfront.trans (List.prefix_append front rest).isInfix
  have hmentions : word.mentions scopeMark = true := Text.mentions_iff_infix.mpr hmark
  rw [shortScope_of_marked hfront hwhole, hword.words_eq, List.filter_append, List.filter_cons,
    if_pos hmentions, filter_words_eq_nil hlast, List.getLast?_concat, Option.getD_some]

theorem not_infix_shortScope (s : Text) : ¬scopeMark <:+: shortScope s := by
  by_cases h : scopeMark <:+: s
  · have hmarked : ¬(!s.mentions scopeMark) = true := by simpa [← Text.mentions_iff_infix] using h
    rw [shortScope, if_neg hmarked]
    exact not_infix_joinScopes _
  · rwa [shortScope_of_unmarked h]

end Named

/-- What the short name of a scope is. No mark is left in it, and shortened again it stays; so does
a scope without marks. Of the part before the parameters it is the last word that has a mark, with
each mark written as an underscore, and it has neither blanks nor parentheses then; where only the
parameters have marks, it is all that stands before them, trimmed. -/
theorem short_name_exact (s : Text) :
    let name := shortScope s
    ¬scopeMark <:+: name ∧ shortScope name = name ∧ (¬scopeMark <:+: s → name = s) ∧
    ∀ front, IsFront s front →
      (∀ before word behind, Text.IsWordOf front before word behind → scopeMark <:+: word →
        ∃ before word behind, Text.IsWordOf front before word behind ∧ scopeMark <:+: word ∧
          ¬scopeMark <:+: behind ∧
          (∃ stretches, Marked word stretches ∧ 2 ≤ stretches.length ∧
            name = Text.joinWith ['_'] stretches) ∧
          ∀ c ∈ name, Text.isBlank c = false ∧ c ≠ '(') ∧
      (¬scopeMark <:+: front → scopeMark <:+: s → name = Text.trim front) := by
  intro name
  have hclean : ¬scopeMark <:+: name := not_infix_shortScope s
  refine ⟨hclean, shortScope_of_unmarked hclean, shortScope_of_unmarked, fun front hfront => ?_⟩
  refine ⟨fun before word behind hword hmark => ?_, fun hplain hs => ?_⟩
  · have hin : scopeMark <:+: front := hmark.trans ⟨before, behind, hword.eq.symm⟩
    obtain ⟨before, word, behind, hword, hmark, hlast⟩ :=
      Text.exists_isWordOf (by decide) hin
    have hname : name = joinScopes word := shortScope_of_isWordOf hfront hword hmark hlast
    obtain ⟨stretches, hstretches⟩ := exists_marked word
    refine ⟨before, word, behind, hword, hmark, hlast, ⟨stretches, hstretches,
      hstretches.two_le_length hmark, hname.trans hstretches.joinScopes_eq⟩, fun c hc => ?_⟩
    rw [hname] at hc
    rcases joinScopes_subset hc with rfl | hc
    · decide
    · refine ⟨hword.isWord.2 c hc, ?_⟩
      rintro rfl
      obtain ⟨rest, -, hopen, -⟩ := hfront
      exact hopen (by simp [hword.eq, hc])
  · exact shortScope_of_unqualified hfront hs hplain

/-- What stands before the parameters of a scope with runs of colons and a wide blank. -/
def colonFront : Text := "std::string ns:::Foo::::bar\u2003baz".toList

/-- Runs of colons, more than one word with marks, and marks in the parameters. -/
theorem short_name_exact_colons :
    let scope := colonFront ++ "(a::b)".toList
    let word := "ns:::Foo::::bar".toList
    IsFront scope colonFront ∧
    Text.IsWordOf colonFront "std::string ".toList word "\u2003baz".toList ∧
    scopeMark <:+: word ∧ shortScope scope = "ns_:Foo__bar".toList ∧
    (∃ before word behind stretches, Text.IsWordOf colonFront before word behind ∧
      Marked word stretches ∧ shortScope scope = Text.joinWith ['_'] stretches) ∧
    ¬scopeMark <:+: shortScope scope ∧ shortScope (shortScope scope) = shortScope scope ∧
    IsFront "Foo (ns::Bar)".toList "Foo ".toList ∧
    shortScope "Foo (ns::Bar)".toList = "Foo".toList := by
  intro scope word
  have hfront : IsFront scope colonFront := ⟨"(a::b)".toList, rfl, by decide, by decide⟩
  have hword : Text.IsWordOf colonFront "std::string ".toList word "\u2003baz".toList :=
    ⟨by decide, by decide, by decide, by decide⟩
  have hmark : scopeMark <:+: word := by decide
  obtain ⟨hclean, hagain, -, hname⟩ := short_name_exact scope
  obtain ⟨before, last, behind, hlast, -, -, ⟨stretches, hstretches, -, hjoined⟩, -⟩ :=
    (hname colonFront hfront).1 _ _ _ hword hmark
  have hplain : IsFront "Foo (ns::Bar)".toList "Foo ".toList :=
    ⟨"(ns::Bar)".toList, rfl, by decide, by decide⟩
  obtain ⟨-, -, -, hunqualified⟩ := short_name_exact "Foo (ns::Bar)".toList
  exact ⟨hfront, hword, hmark, by decide,
    ⟨before, last, behind, stretches, hlast, hstretches, hjoined⟩, hclean, hagain, hplain,
    (hunqualified _ hplain).2 (by decide) (by decide)⟩

end Payload
end TraceReport

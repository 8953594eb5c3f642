import Concord.Proofs.Json.Tokens

/-! Texts of JSON values. A value is spelled by its tokens with any blanks between them, and every
spelling of a value is read as that value. Compact and indented texts are spellings.
-/

namespace Concord.Json

-----------------------------------------------------------------------------------------
-- Spellings
-----------------------------------------------------------------------------------------

/-- Nothing but blanks. -/
def Gap (cs : List Char) : Prop :=
  ∀ c ∈ cs, Reader.isBlank c = true

theorem gap_nil : Gap [] := by
  simp [Gap]

mutual
/-- The value has this text: its tokens as they are written, with gaps between them. -/
inductive Spells : Json → List Char → Prop
  | null : Spells .null "null".toList
  | no : Spells (.bool false) "false".toList
  | yes : Spells (.bool true) "true".toList
  | number {n : Number} (whole : n.Whole) : Spells (.number n) (Writer.number n)
  | text (s : String) : Spells (.text (some s)) (Writer.text (some s))
  | emptyArray {gap : List Char} (blank : Gap gap) : Spells (.array []) ('[' :: gap ++ [']'])
  | array {items : List Json} {gap cs : List Char} (blank : Gap gap) (each : SpellsItems items cs)
    : Spells (.array items) ('[' :: gap ++ cs ++ [']'])
  | emptyObject {gap : List Char} (blank : Gap gap) : Spells (.object []) ('{' :: gap ++ ['}'])
  | object {members : List (Option String × Json)} {gap cs : List Char} (blank : Gap gap)
    (each : SpellsMembers members cs)
    : Spells (.object members) ('{' :: gap ++ cs ++ ['}'])
/-- The items of an array have this text, up to the closing bracket. -/
inductive SpellsItems : List Json → List Char → Prop
  | last {item : Json} {cs gap : List Char} (here : Spells item cs) (blank : Gap gap)
    : SpellsItems [item] (cs ++ gap)
  | more {item : Json} {rest : List Json} {cs gap gap' ds : List Char} (here : Spells item cs)
    (blank : Gap gap) (blank' : Gap gap') (below : SpellsItems rest ds)
    : SpellsItems (item :: rest) (cs ++ gap ++ ',' :: (gap' ++ ds))
/-- The members of an object have this text, up to the closing brace. -/
inductive SpellsMembers : List (Option String × Json) → List Char → Prop
  | last (name : String) {member : Json} {cs gap gap' : List Char} (here : Spells member cs)
    (blank : Gap gap) (blank' : Gap gap')
    : SpellsMembers [(some name, member)] (Writer.text (some name) ++ ':' :: (gap ++ cs ++ gap'))
  | more (name : String) {member : Json} {rest : List (Option String × Json)}
    {cs gap gap' gap'' ds : List Char} (here : Spells member cs) (blank : Gap gap)
    (blank' : Gap gap') (blank'' : Gap gap'') (below : SpellsMembers rest ds)
    : SpellsMembers ((some name, member) :: rest)
        (Writer.text (some name) ++ ':' :: (gap ++ cs ++ gap' ++ ',' :: (gap'' ++ ds)))
end

-----------------------------------------------------------------------------------------
-- Reading spellings
-----------------------------------------------------------------------------------------

/-- The character starts a value: it is no blank, and closes nothing. -/
def Starts (c : Char) : Prop :=
  Reader.isBlank c = false ∧ c ≠ ']' ∧ c ≠ '}'

theorem starts_of_isDigit {c : Char} (h : c.isDigit = true) : Starts c := by
  refine ⟨?_, ?_, ?_⟩
  · simp only [Reader.isBlank, Bool.or_eq_false_iff, decide_eq_false_iff_not]
    refine ⟨⟨⟨?_, ?_⟩, ?_⟩, ?_⟩ <;> (rintro rfl; revert h; decide)
  · rintro rfl
    revert h
    decide
  · rintro rfl
    revert h
    decide

/-- A whole number starts with its sign or with a digit. -/
theorem Number.Whole.starts {n : Number} (h : n.Whole)
    : ∃ c rest, Writer.number n = c :: rest ∧ (c = '-' ∨ c.isDigit = true) := by
  obtain ⟨negative, significand, places, exponent, integral⟩ := n
  obtain ⟨rfl, rfl, rfl⟩ := h
  cases negative with
  | true => exact ⟨_, _, rfl, .inl rfl⟩
  | false =>
      simp only [Writer.number, Bool.false_eq_true, if_false, List.nil_append, if_true,
        List.append_nil]
      cases digits : Writer.decimal significand with
      | nil => exact absurd digits Nat.toDigits_ne_nil
      | cons d ds =>
          have digit := Reader.isDigit_decimal significand d (digits ▸ List.mem_cons_self)
          exact ⟨d, ds, rfl, .inr digit⟩

/-- A spelling starts like a value. -/
theorem Spells.starts {j : Json} {cs : List Char} (h : Spells j cs)
    : ∃ c rest, cs = c :: rest ∧ Starts c := by
  cases h with
  | null => exact ⟨_, _, rfl, by decide, by decide, by decide⟩
  | no => exact ⟨_, _, rfl, by decide, by decide, by decide⟩
  | yes => exact ⟨_, _, rfl, by decide, by decide, by decide⟩
  | text s => exact ⟨_, _, rfl, by decide, by decide, by decide⟩
  | emptyArray _ => exact ⟨_, _, rfl, by decide, by decide, by decide⟩
  | array _ _ => exact ⟨_, _, rfl, by decide, by decide, by decide⟩
  | emptyObject _ => exact ⟨_, _, rfl, by decide, by decide, by decide⟩
  | object _ _ => exact ⟨_, _, rfl, by decide, by decide, by decide⟩
  | number whole =>
      obtain ⟨c, rest, same, rfl | digit⟩ := whole.starts
      · exact ⟨_, rest, same, by decide, by decide, by decide⟩
      · exact ⟨c, rest, same, starts_of_isDigit digit⟩

theorem SpellsItems.starts {items : List Json} {cs : List Char} (h : SpellsItems items cs)
    : ∃ c rest, cs = c :: rest ∧ Starts c := by
  cases h with
  | last here blank =>
      obtain ⟨c, rest, rfl, start⟩ := here.starts
      exact ⟨c, _, rfl, start⟩
  | more here blank blank' below =>
      obtain ⟨c, rest, rfl, start⟩ := here.starts
      exact ⟨c, _, rfl, start⟩

theorem SpellsMembers.starts {members : List (Option String × Json)} {cs : List Char}
    (h : SpellsMembers members cs)
    : ∃ c rest, cs = c :: rest ∧ Starts c := by
  cases h with
  | last _ here blank blank' => exact ⟨_, _, rfl, by decide, by decide, by decide⟩
  | more _ here blank blank' blank'' below => exact ⟨_, _, rfl, by decide, by decide, by decide⟩

/-- Blanks are skipped up to what is none. -/
theorem skipBlanks_gap {gap : List Char} (blank : Gap gap) {c : Char}
    (start : Reader.isBlank c = false) (rest : List Char)
    : Reader.skipBlanks (gap ++ c :: rest) = c :: rest := by
  rw [Reader.skipBlanks, List.dropWhile_append_of_pos blank,
    List.dropWhile_cons_of_neg (by simp [start])]

theorem skipBlanks_colon (rest : List Char)
    : Reader.skipBlanks (':' :: rest) = ':' :: rest :=
  rfl

/-- After a gap and a comma or a closing bracket no number goes on. -/
theorem ends_gap {gap : List Char} (blank : Gap gap) {c : Char}
    (closes : c = ',' ∨ c = ']' ∨ c = '}') (rest : List Char)
    : Ends (gap ++ c :: rest) := by
  intro d hd
  cases gap with
  | nil =>
      cases hd
      rcases closes with rfl | rfl | rfl <;> decide
  | cons g gap =>
      have isBlank := blank g List.mem_cons_self
      obtain rfl : g = d := Option.some.inj hd
      simp only [Reader.isBlank, Bool.or_eq_true, decide_eq_true_eq] at isBlank
      rcases isBlank with ((rfl | rfl) | rfl) | rfl <;> decide

/-- A word is read as its value. -/
theorem word_append (expected : String) (j : Json) (rest : List Char)
    : Reader.word expected j (expected.toList ++ rest) = some (j, rest) := by
  simp [Reader.word, ← String.length_toList]

/-- A written string is its characters between quotes. -/
theorem text_append (s : String) (rest : List Char)
    : Writer.text (some s) ++ rest = '"' :: (s.toList.flatMap Writer.char ++ '"' :: rest) :=
  List.append_assoc ('"' :: s.toList.flatMap Writer.char) ['"'] rest

theorem value_quote (fuel : Nat) (cs : List Char)
    : Reader.value (fuel + 1) ('"' :: cs)
      = (Reader.text cs).map fun found => (.text found.1, found.2) := by
  simp only [Reader.value]

/-- What starts with a sign or a digit is read as a number. -/
theorem value_number {c : Char} (h : c = '-' ∨ c.isDigit = true) (fuel : Nat) (cs : List Char)
    : Reader.value (fuel + 1) (c :: cs)
      = (Reader.number (c :: cs)).map fun found => (.number found.1, found.2) := by
  have other (d : Char) (dash : d ≠ '-') (letter : d.isDigit = false) : c ≠ d := by
    rintro rfl
    rcases h with rfl | digit
    · exact dash rfl
    · simp [letter] at digit
  rw [Reader.value]
  all_goals
    intro rest same
    exact absurd (List.cons.inj same).1 (other _ (by decide) (by decide))

/-- A comma or what closes a value is no blank. -/
theorem not_blank {c : Char} (h : c = ',' ∨ c = ':' ∨ c = ']' ∨ c = '}')
    : Reader.isBlank c = false := by
  rcases h with rfl | rfl | rfl | rfl <;> decide

mutual
/-- Every spelling of a value is read as that value, by induction on spellings. A step of the
reader is paid for by a character of the text, and a second one where items or members begin. -/
theorem Spells.read {j : Json} {cs : List Char} (h : Spells j cs) {fuel : Nat} {rest : List Char}
    (enough : 2 * cs.length ≤ fuel) (ends : Ends rest)
    : Reader.value fuel (cs ++ rest) = some (j, rest) := by
  obtain ⟨fuel, rfl⟩ : ∃ n, fuel = n + 1 := by
    obtain ⟨c, more, rfl, -⟩ := h.starts
    exact ⟨fuel - 1, by simp at enough; omega⟩
  cases h with
  | null => simpa [Reader.value] using word_append "null" .null rest
  | no => simpa [Reader.value] using word_append "false" (.bool false) rest
  | yes => simpa [Reader.value] using word_append "true" (.bool true) rest
  | text s => rw [text_append, value_quote, Reader.text_written, Option.map_some]
  | number whole =>
      obtain ⟨c, more, same, start⟩ := whole.starts
      have written := Reader.number_written whole ends
      rw [same] at written ⊢
      rw [List.cons_append] at written ⊢
      rw [value_number start, written, Option.map_some]
  | emptyArray blank =>
      simp only [List.cons_append, List.append_assoc, List.nil_append, Reader.value,
        skipBlanks_gap blank (not_blank (.inr (.inr (.inl rfl))))]
  | @array items gap cs blank each =>
      have room : 2 * cs.length + 1 ≤ fuel := by simp at enough; omega
      have below : Reader.items fuel (cs ++ ']' :: rest) = some (items, rest) := each.read room
      obtain ⟨c, more, rfl, start, notBracket, -⟩ := each.starts
      simp only [List.cons_append, List.append_assoc, List.nil_append] at below ⊢
      rw [Reader.value, skipBlanks_gap blank start]
      split
      · rename_i other same
        exact absurd (List.cons.inj same).1 notBracket
      · rw [below, Option.map_some]
  | emptyObject blank =>
      simp only [List.cons_append, List.append_assoc, List.nil_append, Reader.value,
        skipBlanks_gap blank (not_blank (.inr (.inr (.inr rfl))))]
  | @object members gap cs blank each =>
      have room : 2 * cs.length + 1 ≤ fuel := by simp at enough; omega
      have below : Reader.members fuel (cs ++ '}' :: rest) = some (members, rest) :=
        each.read room
      obtain ⟨c, more, rfl, start, -, notBrace⟩ := each.starts
      simp only [List.cons_append, List.append_assoc, List.nil_append] at below ⊢
      rw [Reader.value, skipBlanks_gap blank start]
      split
      · rename_i other same
        exact absurd (List.cons.inj same).1 notBrace
      · rw [below, Option.map_some]
/-- Items are read up to the bracket that closes them. -/
theorem SpellsItems.read {items : List Json} {cs : List Char} (h : SpellsItems items cs)
    {fuel : Nat} {rest : List Char} (enough : 2 * cs.length + 1 ≤ fuel)
    : Reader.items fuel (cs ++ ']' :: rest) = some (items, rest) := by
  obtain ⟨fuel, rfl⟩ : ∃ n, fuel = n + 1 := ⟨fuel - 1, by omega⟩
  cases h with
  | @last item cs gap here blank =>
      have room : 2 * cs.length ≤ fuel := by simp at enough; omega
      have first := here.read room (ends_gap blank (.inr (.inl rfl)) rest)
      simp only [List.append_assoc, Reader.items, first, Option.bind_some,
        skipBlanks_gap blank (not_blank (.inr (.inr (.inl rfl))))]
  | @more item items cs gap gap' ds here blank blank' below =>
      have room : 2 * cs.length ≤ fuel ∧ 2 * ds.length + 1 ≤ fuel := by
        simp at enough; omega
      have first := here.read room.1 (ends_gap blank (.inl rfl) (gap' ++ (ds ++ ']' :: rest)))
      have after : Reader.items fuel (ds ++ ']' :: rest) = some (items, rest) :=
        below.read room.2
      obtain ⟨c, more, rfl, start, -, -⟩ := below.starts
      simp only [List.append_assoc, List.cons_append] at first after ⊢
      simp only [Reader.items, first, Option.bind_some, skipBlanks_gap blank (not_blank (.inl rfl)),
        skipBlanks_gap blank' start, after, Option.map_some]
/-- Members are read up to the brace that closes them. -/
theorem SpellsMembers.read {members : List (Option String × Json)} {cs : List Char}
    (h : SpellsMembers members cs) {fuel : Nat} {rest : List Char}
    (enough : 2 * cs.length + 1 ≤ fuel)
    : Reader.members fuel (cs ++ '}' :: rest) = some (members, rest) := by
  obtain ⟨fuel, rfl⟩ : ∃ n, fuel = n + 1 := ⟨fuel - 1, by omega⟩
  cases h with
  | @last name member cs gap gap' here blank blank' =>
      have room : 2 * cs.length ≤ fuel := by simp at enough; omega
      have first := here.read room (ends_gap blank' (.inr (.inr rfl)) rest)
      obtain ⟨c, more, rfl, start, -, -⟩ := here.starts
      simp only [List.append_assoc, List.cons_append, text_append] at first ⊢
      simp only [Reader.members, Reader.text_written, Option.bind_some, skipBlanks_colon,
        skipBlanks_gap blank start, first,
        skipBlanks_gap blank' (not_blank (.inr (.inr (.inr rfl))))]
  | @more name member members cs gap gap' gap'' ds here blank blank' blank'' below =>
      have room : 2 * cs.length ≤ fuel ∧ 2 * ds.length + 1 ≤ fuel := by
        simp at enough; omega
      have first := here.read room.1 (ends_gap blank' (.inl rfl) (gap'' ++ (ds ++ '}' :: rest)))
      have after : Reader.members fuel (ds ++ '}' :: rest) = some (members, rest) :=
        below.read room.2
      obtain ⟨c, more, rfl, start, -, -⟩ := here.starts
      obtain ⟨c', more', rfl, start', -, -⟩ := below.starts
      simp only [List.append_assoc, List.cons_append, text_append] at first after ⊢
      simp only [Reader.members, Reader.text_written, Option.bind_some, skipBlanks_colon,
        skipBlanks_gap blank start, first, skipBlanks_gap blank' (not_blank (.inl rfl)),
        skipBlanks_gap blank'' start', after, Option.map_some]
end

/-- The text of a value, with blanks around it, is parsed as that value. -/
theorem parse?_of_spells {j : Json} {before cs after : List Char} (blank : Gap before)
    (h : Spells j cs) (blank' : Gap after)
    : parse? (String.ofList (before ++ cs ++ after)) = some j := by
  have ends : Ends after := by
    intro c hc
    have isBlank := blank' c (List.mem_of_mem_head? hc)
    simp only [Reader.isBlank, Bool.or_eq_true, decide_eq_true_eq] at isBlank
    rcases isBlank with ((rfl | rfl) | rfl) | rfl <;> decide
  have room : 2 * cs.length ≤ 2 * (before ++ cs ++ after).length + 2 := by simp; omega
  have found := h.read room ends
  have rest : Reader.skipBlanks after = [] := by
    rw [Reader.skipBlanks, ← List.append_nil after, List.dropWhile_append_of_pos blank',
      List.dropWhile_nil]
  obtain ⟨c, more, rfl, start, -, -⟩ := h.starts
  rw [List.cons_append] at found
  have skipped
      : Reader.skipBlanks (before ++ c :: more ++ after) = c :: (more ++ after) := by
    rw [List.append_assoc, List.cons_append, skipBlanks_gap blank start]
  simp only [parse?, leading?, String.toList_ofList, skipped, found, Option.bind_some, rest,
    List.isEmpty_nil, if_true]

-----------------------------------------------------------------------------------------
-- Written values
-----------------------------------------------------------------------------------------

/-- All numbers in the value are whole, and all strings and names denote texts. -/
inductive Plain : Json → Prop
  | null : Plain .null
  | bool (b : Bool) : Plain (.bool b)
  | number {n : Number} (whole : n.Whole) : Plain (.number n)
  | text (s : String) : Plain (.text (some s))
  | array {items : List Json} (each : ∀ j ∈ items, Plain j) : Plain (.array items)
  | object {members : List (Option String × Json)} (named : ∀ m ∈ members, m.1.isSome)
    (each : ∀ m ∈ members, Plain m.2)
    : Plain (.object members)

/-- Items written without blanks, by list induction. -/
theorem spells_compactItems {items : List Json} (some : items ≠ [])
    (each : ∀ j ∈ items, Spells j (Writer.compact j))
    : SpellsItems items (Writer.compactItems items) := by
  induction items with
  | nil => exact absurd rfl some
  | cons item rest ih =>
      have here := each item List.mem_cons_self
      cases rest with
      | nil => simpa [Writer.compactItems] using SpellsItems.last here gap_nil
      | cons next rest =>
          have below := ih (List.cons_ne_nil next rest) fun j hj => each j (.tail item hj)
          simpa [Writer.compactItems] using SpellsItems.more here gap_nil gap_nil below

/-- Members written without blanks, by list induction. -/
theorem spells_compactMembers {members : List (Option String × Json)} (some : members ≠ [])
    (named : ∀ m ∈ members, m.1.isSome)
    (each : ∀ m ∈ members, Spells m.2 (Writer.compact m.2))
    : SpellsMembers members (Writer.compactMembers members) := by
  induction members with
  | nil => exact absurd rfl some
  | cons member rest ih =>
      have here := each member List.mem_cons_self
      obtain ⟨_ | name, value⟩ := member
      · cases named _ List.mem_cons_self
      cases rest with
      | nil =>
          simpa [Writer.compactMembers] using
            SpellsMembers.last name here gap_nil gap_nil
      | cons next rest =>
          have below := ih (List.cons_ne_nil next rest) (fun m hm => named m (.tail _ hm))
            fun m hm => each m (.tail _ hm)
          simpa [Writer.compactMembers] using
            SpellsMembers.more name here gap_nil gap_nil gap_nil below

/-- The compact text of a plain value spells it, by induction on the value. -/
theorem Plain.compact {j : Json} (h : j.Plain) : Spells j (Writer.compact j) := by
  induction h with
  | null => simpa only [Writer.compact] using Spells.null
  | bool b =>
      cases b with
      | false => simpa only [Writer.compact] using Spells.no
      | true => simpa only [Writer.compact] using Spells.yes
  | number whole => simpa only [Writer.compact] using Spells.number whole
  | text s => simpa only [Writer.compact] using Spells.text s
  | @array items each ih =>
      rw [Writer.compact]
      cases items with
      | nil => exact .emptyArray gap_nil
      | cons item rest =>
          exact .array gap_nil (spells_compactItems (List.cons_ne_nil item rest) ih)
  | @object members named each ih =>
      rw [Writer.compact]
      cases members with
      | nil => exact .emptyObject gap_nil
      | cons member rest =>
          exact .object gap_nil (spells_compactMembers (List.cons_ne_nil member rest) named ih)

theorem gap_newline (depth : Nat) : Gap (Writer.newline depth) := by
  intro c hc
  simp only [Writer.newline, List.mem_cons, List.mem_replicate] at hc
  rcases hc with rfl | ⟨-, rfl⟩ <;> decide

/-- Items on lines of their own, by list induction; the break before the first one belongs to what
encloses them. -/
theorem spells_prettyItems {depth : Nat} {items : List Json} (some : items ≠ [])
    (each : ∀ j ∈ items, Spells j (Writer.pretty depth j)) {gap : List Char} (blank : Gap gap)
    : ∃ cs, Writer.prettyItems depth items = Writer.newline depth ++ cs
        ∧ SpellsItems items (cs ++ gap) := by
  induction items with
  | nil => exact absurd rfl some
  | cons item rest ih =>
      have here := each item List.mem_cons_self
      cases rest with
      | nil => exact ⟨_, by simp only [Writer.prettyItems], .last here blank⟩
      | cons next rest =>
          obtain ⟨cs, same, below⟩ :=
            ih (List.cons_ne_nil next rest) fun j hj => each j (.tail item hj)
          refine ⟨Writer.pretty depth item ++ ',' :: (Writer.newline depth ++ cs), ?_, ?_⟩
          · rw [Writer.prettyItems, same, List.append_assoc]
          · simpa using SpellsItems.more here gap_nil (gap_newline depth) below

/-- Members on lines of their own, by list induction. -/
theorem spells_prettyMembers {depth : Nat} {members : List (Option String × Json)}
    (some : members ≠ []) (named : ∀ m ∈ members, m.1.isSome)
    (each : ∀ m ∈ members, Spells m.2 (Writer.pretty depth m.2)) {gap : List Char}
    (blank : Gap gap)
    : ∃ cs, Writer.prettyMembers depth members = Writer.newline depth ++ cs
        ∧ SpellsMembers members (cs ++ gap) := by
  have space : Gap [' '] := by simp [Gap, Reader.isBlank]
  induction members with
  | nil => exact absurd rfl some
  | cons member rest ih =>
      have here := each member List.mem_cons_self
      obtain ⟨_ | name, value⟩ := member
      · cases named _ List.mem_cons_self
      cases rest with
      | nil =>
          refine ⟨Writer.text name ++ ':' :: ' ' :: Writer.pretty depth value, ?_, ?_⟩
          · rw [Writer.prettyMembers, List.append_assoc]
          · simpa using SpellsMembers.last name here space blank
      | cons next rest =>
          obtain ⟨cs, same, below⟩ :=
            ih (List.cons_ne_nil next rest) (fun m hm => named m (.tail _ hm))
              fun m hm => each m (.tail _ hm)
          refine ⟨Writer.text name ++ ':' :: ' ' :: Writer.pretty depth value
            ++ ',' :: (Writer.newline depth ++ cs), ?_, ?_⟩
          · rw [Writer.prettyMembers, same]
            simp only [List.append_assoc]
          · simpa using
              SpellsMembers.more name here space gap_nil (gap_newline depth) below

/-- The indented text of a plain value spells it at every depth, by induction on the value. -/
theorem Plain.pretty {j : Json} (h : j.Plain) (depth : Nat)
    : Spells j (Writer.pretty depth j) := by
  induction h generalizing depth with
  | null => simpa only [Writer.pretty] using Spells.null
  | bool b =>
      cases b with
      | false => simpa only [Writer.pretty] using Spells.no
      | true => simpa only [Writer.pretty] using Spells.yes
  | number whole => simpa only [Writer.pretty] using Spells.number whole
  | text s => simpa only [Writer.pretty] using Spells.text s
  | @array items each ih =>
      cases items with
      | nil => simpa [Writer.pretty] using Spells.emptyArray gap_nil
      | cons item rest =>
          obtain ⟨cs, same, spelled⟩ := spells_prettyItems (List.cons_ne_nil item rest)
            (fun j hj => ih j hj (depth + 1)) (gap_newline depth)
          rw [Writer.pretty, same]
          simpa using Spells.array (gap_newline (depth + 1)) spelled
  | @object members named each ih =>
      cases members with
      | nil => simpa [Writer.pretty] using Spells.emptyObject gap_nil
      | cons member rest =>
          obtain ⟨cs, same, spelled⟩ := spells_prettyMembers (List.cons_ne_nil member rest) named
            (fun m hm => ih m hm (depth + 1)) (gap_newline depth)
          rw [Writer.pretty, same]
          simpa using Spells.object (gap_newline (depth + 1)) spelled

/-- A plain value is parsed from its compact text. -/
theorem Plain.parse?_toCompact {j : Json} (h : j.Plain) : parse? (toCompact j) = some j := by
  simpa [toCompact] using parse?_of_spells gap_nil h.compact gap_nil

/-- A plain value is parsed from its indented text. -/
theorem Plain.parse?_toPretty {j : Json} (h : j.Plain) : parse? (toPretty j) = some j := by
  simpa [toPretty] using parse?_of_spells gap_nil (h.pretty 0) gap_nil

end Concord.Json

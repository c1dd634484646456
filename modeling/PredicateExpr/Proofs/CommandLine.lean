import Mathlib.Data.List.Infix
import Mathlib.Tactic.Common
import PredicateExpr.CommandLine.Parts
import PredicateExpr.Proofs.Outcome

/-!
# What the command line does

The arguments are read one by one, each in view of what was read before it. This comes to the same
as looking at the parts that they are made of. A list of arguments that is not refused is made of
parts (`understood_of_readFrom`); reading it adds one part after another to what was read
(`readFrom_flatMap_texts`); and the parts can be added one after another just if they can be
complied with as a whole (`foldlM_add_of_valid` and `foldlM_add_of_not_valid`), by induction from
the last part back. `run_reports` says what this means for those who run the program.
-/

namespace PredicateExpr.CommandLine

/-! ## Single arguments -/

/-- What does not look like an option is plain. -/
theorem looksLikeOption_eq_false_iff {text : String} :
    looksLikeOption text = false ↔ Plain text := by
  unfold looksLikeOption Plain
  by_cases hhead : text.toList.head? = some '-'
  · simp [hhead]
  · simp [hhead]

namespace Argument

/-- How an argument of each kind is written. -/
def WrittenAs (text : String) : Argument → Prop
  | expression said => said = text ∧ Plain text
  | valued option none => text = option.name
  | valued option (some value) => text = option.name ++ "=" ++ value
  | tokens => text = "--tokens"
  | version => AsksAbout text
  | endOfOptions => text = "--"
  | unknown said => said = text

/-- What an argument is taken for is written like this. -/
theorem writtenAs_ofText (text : String) : (ofText text).WrittenAs text := by
  unfold ofText
  split
  · rename_i hlook
    exact ⟨rfl, looksLikeOption_eq_false_iff.mp (by simpa using hlook)⟩
  split
  · assumption
  split
  · assumption
  split
  · rename_i hversion
    rcases hversion with hlong | hshort
    · exact .inl hlong
    · exact .inr (.inl (List.isPrefixOf_iff_prefix.mp hshort))
  split
  · rename_i argument hfound
    obtain ⟨option, _, hoption⟩ := List.exists_of_findSome?_eq_some hfound
    split at hoption
    · cases hoption
      assumption
    · obtain ⟨value, hvalue, hargument⟩ := Option.map_eq_some_iff.mp hoption
      have htext := List.isPrefixOf?_eq_some_iff_append_eq.mp hvalue
      rw [← hargument, WrittenAs, ← String.toList_inj, String.toList_append, String.toList_ofList,
        htext]
  · rfl

/-- What an argument is taken for tells how it is written. -/
theorem writtenAs_of_eq {text : String} {argument : Argument} (h : ofText text = argument) :
    argument.WrittenAs text :=
  h ▸ writtenAs_ofText text

/-- An argument that does not look like an option is an expression. -/
theorem ofText_of_plain {text : String} (h : Plain text) : ofText text = .expression text := by
  rw [ofText, looksLikeOption_eq_false_iff.mpr h]
  rfl

theorem ofText_end : ofText "--" = .endOfOptions := by
  decide

theorem ofText_tokens : ofText "--tokens" = .tokens := by
  decide

/-- An option that takes a value has it in the next argument, if its name stands alone. -/
theorem ofText_name (option : ValueOption) : ofText option.name = .valued option none := by
  cases option <;> decide

/-- An option that takes a value has it behind an equals sign, whatever the value is. -/
theorem ofText_attached (option : ValueOption) (value : String) :
    ofText (option.name ++ "=" ++ value) = .valued option (some value) := by
  cases option with
  | set =>
    unfold ofText looksLikeOption
    simp [ValueOption.name, ← String.toList_inj, List.findSome?, List.isPrefixOf?]
  | logLevel =>
    unfold ofText looksLikeOption
    simp [ValueOption.name, ← String.toList_inj, List.findSome?, List.isPrefixOf?]

end Argument

/-! ## Several parts -/

/-- What was read, with one more part. -/
def Arguments.add (read : Arguments) : Part → Except UsageError Arguments
  | .expression text => .ok { read with expressions := read.expressions ++ [text] }
  | .valued option value _ => read.addValue option value
  | .tokens =>
    if read.tokens then .error (.repeated "--tokens") else .ok { read with tokens := true }

/-- A part is read as a whole. -/
theorem readFrom_texts (read : Arguments) {part : Part} (h : part.Legal) (rest : List String) :
    readFrom read (part.texts ++ rest) = read.add part >>= fun read => readFrom read rest := by
  cases part with
  | expression text =>
    have hkind := Argument.ofText_of_plain h
    simp only [Part.texts, List.singleton_append, readFrom, hkind]
    rfl
  | tokens =>
    simp only [Part.texts, List.singleton_append, readFrom, Argument.ofText_tokens, Arguments.add]
    cases read.tokens <;> rfl
  | valued option value attached =>
    cases attached with
    | true =>
      have hkind := Argument.ofText_attached option value
      simp only [Part.texts, List.singleton_append, readFrom, hkind]
      rfl
    | false =>
      have hkind := Argument.ofText_name option
      have hplain := looksLikeOption_eq_false_iff.mpr h
      simp only [Part.texts, List.cons_append, List.nil_append, readFrom, hkind, hplain]
      rfl

/-- Parts are read one after another. -/
theorem readFrom_flatMap_texts (read : Arguments) {items : List Part}
    (h : ∀ part ∈ items, part.Legal) (rest : List String) :
    readFrom read (items.flatMap Part.texts ++ rest) =
      items.foldlM Arguments.add read >>= fun read => readFrom read rest := by
  induction items generalizing read with
  | nil => rfl
  | cons part items ih =>
    rw [List.forall_mem_cons] at h
    rw [List.flatMap_cons, List.append_assoc, readFrom_texts read h.1, List.foldlM_cons, bind_assoc]
    exact bind_congr fun read => ih read h.2

/-! ## What parts come to -/

/-- Whether one more part can be complied with, behind parts that can be. -/
def Admits (items : List Part) : Part → Prop
  | .expression _ => True
  | .valued .set value _ => (Assignment.ofText? value).isSome = true
  | .valued .logLevel value _ =>
    values .logLevel items = [] ∧ (LogLevel.ofText? value).isSome = true
  | .tokens => .tokens ∉ items

/-- The values of an option, with one more part. -/
theorem values_concat (option : ValueOption) (items : List Part) (last : Part) :
    values option (items ++ [last]) = values option items ++ (last.value? option).toList := by
  rw [values, List.filterMap_append, values]
  cases hvalue : last.value? option <;> simp [hvalue]

/-- Fewer parts can be complied with, too. -/
theorem Valid.of_sublist {items others : List Part} (h : Valid others)
    (hsublist : items.Sublist others) : Valid items := by
  have hvalues : ∀ option, (values option items).Sublist (values option others) := fun option =>
    hsublist.filterMap _
  refine ⟨?_, ?_, ?_, ?_⟩
  · exact (hsublist.count_le _).trans h.tokens
  · exact (hvalues .logLevel).length_le.trans h.logLevel
  · intro value hvalue
    exact h.assignments value ((hvalues .set).subset hvalue)
  · intro value hvalue
    exact h.levels value ((hvalues .logLevel).subset hvalue)

/-- One more part that is admitted can be complied with. -/
theorem Valid.concat {items : List Part} {last : Part} (h : Valid items)
    (hlast : Admits items last) : Valid (items ++ [last]) := by
  refine ⟨?_, ?_, ?_, ?_⟩
  · rw [List.count_append]
    cases last with
    | tokens =>
      have hnone : items.count .tokens = 0 := List.count_eq_zero.mpr hlast
      rw [hnone, List.count_singleton_self]
    | expression | valued => simpa using h.tokens
  · rw [values_concat, List.length_append]
    cases last with
    | expression | tokens => exact h.logLevel
    | valued option value attached =>
      cases option with
      | set => exact h.logLevel
      | logLevel =>
        rw [hlast.1]
        exact Nat.le_refl 1
  · rw [values_concat, List.forall_mem_append]
    refine ⟨h.assignments, ?_⟩
    cases last with
    | expression | tokens => exact nofun
    | valued option value attached =>
      cases option with
      | set => exact List.forall_mem_singleton.mpr hlast
      | logLevel => exact nofun
  · rw [values_concat, List.forall_mem_append]
    refine ⟨h.levels, ?_⟩
    cases last with
    | expression | tokens => exact nofun
    | valued option value attached =>
      cases option with
      | set => exact nofun
      | logLevel => exact List.forall_mem_singleton.mpr hlast.2

/-- Behind parts that can be complied with, only a part that is admitted can be, too. -/
theorem Valid.admits {items : List Part} {last : Part} (h : Valid (items ++ [last])) :
    Admits items last := by
  cases last with
  | expression text => trivial
  | tokens =>
    intro hmem
    have hbefore : 0 < items.count .tokens := List.count_pos_iff.mpr hmem
    have hcount := h.tokens
    rw [List.count_append, List.count_singleton_self] at hcount
    omega
  | valued option value attached =>
    cases option with
    | set =>
      have hvalues := values_concat .set items (.valued .set value attached)
      exact h.assignments value (hvalues ▸ List.mem_append_right _ List.mem_cons_self)
    | logLevel =>
      have hvalues := values_concat .logLevel items (.valued .logLevel value attached)
      have hlength := h.logLevel
      rw [hvalues, List.length_append] at hlength
      have hnone : (values .logLevel items).length = 0 := by
        simpa [Part.value?] using hlength
      refine ⟨List.length_eq_zero_iff.mp hnone, ?_⟩
      exact h.levels value (hvalues ▸ List.mem_append_right _ List.mem_cons_self)

/-- What is read from parts in front of `--`, if they can be complied with. -/
def collect (items : List Part) : Arguments where
  expressions := items.filterMap Part.text?
  assignments := assignments items
  tokens := decide (.tokens ∈ items)
  logLevel? := (values .logLevel items).head?.bind LogLevel.ofText?

/-- A part that is admitted is added. -/
theorem add_of_admits {items : List Part} {last : Part} (hlast : Admits items last) :
    (collect items).add last = .ok (collect (items ++ [last])) := by
  have hset := values_concat .set items last
  have hlogLevel := values_concat .logLevel items last
  cases last with
  | expression text =>
    simp [collect, Arguments.add, assignments, hset, hlogLevel, Part.value?, Part.text?]
  | tokens =>
    have hnone : Part.tokens ∉ items := hlast
    simp [collect, Arguments.add, assignments, hset, hlogLevel, Part.value?, Part.text?, hnone]
  | valued option value attached =>
    cases option with
    | set =>
      obtain ⟨assignment, hassignment⟩ := Option.isSome_iff_exists.mp hlast
      simp [collect, Arguments.add, Arguments.addValue, assignments, hset, hlogLevel, Part.value?,
        Part.text?, hassignment]
    | logLevel =>
      obtain ⟨hnone, hlevel⟩ := hlast
      obtain ⟨level, hlevel⟩ := Option.isSome_iff_exists.mp hlevel
      simp [collect, Arguments.add, Arguments.addValue, assignments, hset, hlogLevel, Part.value?,
        Part.text?, hlevel, hnone, Settings.readLevel]

/-- A part that is not admitted is refused. -/
theorem add_of_not_admits {items : List Part} {last : Part} (h : Valid items)
    (hlast : ¬Admits items last) : ∃ e, (collect items).add last = .error e := by
  cases last with
  | expression text => exact absurd trivial hlast
  | tokens =>
    have hsome : Part.tokens ∈ items := not_not.mp hlast
    refine ⟨.repeated "--tokens", ?_⟩
    simp [collect, Arguments.add, hsome]
  | valued option value attached =>
    cases option with
    | set =>
      have hnone : Assignment.ofText? value = none := by simpa [Admits] using hlast
      refine ⟨.invalidAssignment value, ?_⟩
      simp [Arguments.add, Arguments.addValue, hnone]
    | logLevel =>
      cases hvalues : values .logLevel items with
      | nil =>
        have hnone : LogLevel.ofText? value = none := by simpa [Admits, hvalues] using hlast
        refine ⟨.invalidSetting (.logLevel value), ?_⟩
        simp [collect, Arguments.add, Arguments.addValue, hvalues, Settings.readLevel, hnone]
      | cons first others =>
        -- the level given before is one, so that there is one to repeat
        have hfirst : (LogLevel.ofText? first).isSome = true := h.levels first (by simp [hvalues])
        refine ⟨.repeated ValueOption.logLevel.name, ?_⟩
        simp [collect, Arguments.add, Arguments.addValue, hvalues, hfirst]

/-- Parts that can be complied with are read. -/
theorem foldlM_add_of_valid {items : List Part} (h : Valid items) :
    items.foldlM Arguments.add .nothing = .ok (collect items) := by
  induction items using List.reverseRecOn with
  | nil => rfl
  | append_singleton items last ih =>
    have hitems : Valid items := h.of_sublist (List.sublist_append_left _ _)
    have hadd := add_of_admits h.admits
    rw [List.foldlM_append, ih hitems, ok_bind, List.foldlM_cons, hadd]
    rfl

/-- Parts that cannot be complied with are refused. -/
theorem foldlM_add_of_not_valid {items : List Part} (h : ¬Valid items) :
    ∃ e, items.foldlM Arguments.add .nothing = .error e := by
  induction items using List.reverseRecOn with
  | nil =>
    have hvalid : Valid [] := ⟨by simp, by simp [values], by simp [values], by simp [values]⟩
    exact absurd hvalid h
  | append_singleton items last ih =>
    by_cases hitems : Valid items
    · have hlast : ¬Admits items last := fun hlast => h (hitems.concat hlast)
      obtain ⟨e, hadd⟩ := add_of_not_admits hitems hlast
      refine ⟨e, ?_⟩
      rw [List.foldlM_append, foldlM_add_of_valid hitems, ok_bind, List.foldlM_cons, hadd]
      rfl
    · obtain ⟨e, hread⟩ := ih hitems
      refine ⟨e, ?_⟩
      rw [List.foldlM_append, hread, error_bind]

/-! ## Arguments and their parts -/

/-- Behind `--` there are only expressions. -/
theorem readFrom_behind (read : Arguments) (behind? : Option (List String)) :
    readFrom read (match behind? with | none => [] | some behind => "--" :: behind) =
      .ok (.report { read with expressions := read.expressions ++ behind?.getD [] }) := by
  cases behind? with
  | none => simp [readFrom]
  | some behind => simp [readFrom, Argument.ofText_end]

/-- The parts of a list of arguments decide what is read from it. -/
theorem read_of_splits {arguments : List String} {parts : Parts} (h : Splits arguments parts) :
    read arguments = parts.items.foldlM Arguments.add .nothing >>= fun read =>
      .ok (.report { read with expressions := read.expressions ++ parts.behind?.getD [] }) := by
  rw [h.texts, Parts.texts, read, readFrom_flatMap_texts .nothing h.legal]
  exact bind_congr fun read => readFrom_behind read parts.behind?

/-- What is read from parts asks for the report that the parts ask for. -/
theorem report_collect (parts : Parts) :
    Arguments.report { collect parts.items with
      expressions := (collect parts.items).expressions ++ parts.behind?.getD [] } =
      parts.report := by
  unfold Arguments.report Parts.report
  change Report.ofTexts _ _ (if parts.expressions.isEmpty then _ else parts.expressions) = _
  cases parts.expressions <;> rfl

/-- The texts of a part do not end the options. -/
theorem Part.ne_of_mem_texts {part : Part} (h : part.Legal) {text : String}
    (htext : text ∈ part.texts) : text ≠ "--" := by
  have hplain : ∀ {text}, Plain text → text ≠ "--" := by
    rintro _ hplain rfl
    exact absurd hplain (by decide)
  cases part with
  | expression said =>
    rw [texts, List.mem_singleton] at htext
    exact htext ▸ hplain h
  | tokens =>
    rw [texts, List.mem_singleton] at htext
    rw [htext]
    decide
  | valued option value attached =>
    cases attached with
    | true =>
      rw [texts, List.mem_singleton] at htext
      rintro rfl
      have hkind := Argument.ofText_attached option value
      rw [← htext, Argument.ofText_end] at hkind
      cases hkind
    | false =>
      rw [texts, List.mem_pair] at htext
      rcases htext with rfl | rfl
      · cases option <;> decide
      · exact hplain h

/-- It is an argument in front of `--` by which the program is asked about itself. -/
theorem Asks.exists_mem_takeWhile {arguments : List String} (h : Asks arguments) :
    ∃ text ∈ arguments.takeWhile (· != "--"), AsksAbout text := by
  obtain ⟨items, text, rest, hlegal, hasks, rfl⟩ := h
  have hitems : ∀ said ∈ items.flatMap Part.texts, (said != "--") = true := by
    intro said hsaid
    obtain ⟨part, hpart, hsaid⟩ := List.mem_flatMap.mp hsaid
    exact bne_iff_ne.mpr (Part.ne_of_mem_texts (hlegal part hpart) hsaid)
  have htext : (text != "--") = true := by
    refine bne_iff_ne.mpr ?_
    rintro rfl
    exact absurd hasks (by decide)
  refine ⟨text, ?_, hasks⟩
  rw [List.takeWhile_append_of_pos hitems, List.takeWhile_cons, if_pos htext]
  exact List.mem_append_right _ List.mem_cons_self

/-- No part begins with an option that does not exist. -/
theorem not_splits_of_unknown {text said : String} {texts : List String}
    (h : Argument.ofText text = .unknown said) : ¬∃ parts, Splits (text :: texts) parts := by
  rintro ⟨⟨items, behind?⟩, hlegal, htexts⟩
  cases items with
  | nil =>
    cases behind? with
    | none => cases htexts
    | some behind =>
      obtain ⟨rfl, -⟩ := List.cons.inj htexts
      cases Argument.ofText_end.symm.trans h
  | cons part items =>
    have hpart := hlegal part List.mem_cons_self
    cases part with
    | expression text =>
      obtain ⟨rfl, -⟩ := List.cons.inj htexts
      cases (Argument.ofText_of_plain hpart).symm.trans h
    | tokens =>
      obtain ⟨rfl, -⟩ := List.cons.inj htexts
      cases Argument.ofText_tokens.symm.trans h
    | valued option value attached =>
      cases attached with
      | true =>
        obtain ⟨rfl, -⟩ := List.cons.inj htexts
        cases (Argument.ofText_attached option value).symm.trans h
      | false =>
        obtain ⟨rfl, -⟩ := List.cons.inj htexts
        cases (Argument.ofText_name option).symm.trans h

/-- What a list of arguments turns out to be when it is not refused. -/
def Understood (arguments : List String) : Prop :=
  (∃ parts, Splits arguments parts) ∨ Asks arguments

/-- One more part makes no difference to whether arguments are understood. -/
theorem Understood.cons (part : Part) (h : part.Legal) {arguments : List String}
    (harguments : Understood arguments) : Understood (part.texts ++ arguments) := by
  rcases harguments with ⟨parts, hsplits⟩ | ⟨items, text, rest, hlegal, hasks, rfl⟩
  · refine .inl ⟨⟨part :: parts.items, parts.behind?⟩, ?_, ?_⟩
    · exact List.forall_mem_cons.mpr ⟨h, hsplits.legal⟩
    · rw [hsplits.texts, Parts.texts, Parts.texts, List.flatMap_cons, List.append_assoc]
  · refine .inr ⟨part :: items, text, rest, List.forall_mem_cons.mpr ⟨h, hlegal⟩, hasks, ?_⟩
    rw [List.flatMap_cons, List.append_assoc]

/-- Arguments that are not refused are understood. -/
theorem understood_of_readFrom {found : Arguments} {arguments : List String}
    {invocation : Invocation} (h : readFrom found arguments = .ok invocation) :
    Understood arguments := by
  fun_induction readFrom found arguments generalizing invocation with
  | case1 found => exact .inl ⟨⟨[], none⟩, by simp, rfl⟩
  | case2 found text texts said hkind ih =>
    obtain ⟨-, hplain⟩ := Argument.writtenAs_of_eq hkind
    exact Understood.cons (.expression text) hplain (ih h)
  | case3 found text texts hkind =>
    obtain rfl : text = "--" := Argument.writtenAs_of_eq hkind
    exact .inl ⟨⟨[], some texts⟩, by simp, rfl⟩
  | case4 found text texts hkind =>
    exact .inr ⟨[], text, texts, nofun, Argument.writtenAs_of_eq hkind, rfl⟩
  | case5 => cases h
  | case6 => cases h
  | case7 found text texts hkind _ ih =>
    obtain rfl : text = "--tokens" := Argument.writtenAs_of_eq hkind
    exact Understood.cons .tokens trivial (ih h)
  | case8 found text texts option value hkind ih =>
    obtain rfl : text = option.name ++ "=" ++ value := Argument.writtenAs_of_eq hkind
    obtain ⟨_, _, hrest⟩ := bind_eq_ok_iff.mp h
    exact Understood.cons (.valued option value true) trivial (ih _ hrest)
  | case9 => cases h
  | case10 => cases h
  | case11 found text option hkind value texts hlook ih =>
    obtain rfl : text = option.name := Argument.writtenAs_of_eq hkind
    have hplain : Plain value := looksLikeOption_eq_false_iff.mp (by simpa using hlook)
    obtain ⟨_, _, hrest⟩ := bind_eq_ok_iff.mp h
    exact Understood.cons (.valued option value false) hplain (ih _ hrest)

/-! ## Running the program -/

variable {arguments : List String} {levelText? : Option String} {parts : Parts}

/-- Settings are read from an environment just if it is usable. -/
theorem ofEnvironment_cases (levelText? : Option String) :
    (Usable levelText? ∧ ∃ settings, Settings.ofEnvironment levelText? = .ok settings) ∨
      ¬Usable levelText? ∧ ∃ cause, Settings.ofEnvironment levelText? = .error cause := by
  cases levelText? with
  | none => exact .inl ⟨nofun, _, rfl⟩
  | some text =>
    cases hlevel : LogLevel.ofText? text with
    | none =>
      refine .inr ⟨fun husable => ?_, .logLevel text, ?_⟩
      · simpa [hlevel] using husable text rfl
      · simp [Settings.ofEnvironment, Settings.readLevel, hlevel, Except.map]
    | some level =>
      refine .inl ⟨?_, ⟨level⟩, ?_⟩
      · rintro _ ⟨⟩
        simp [hlevel]
      · simp [Settings.ofEnvironment, Settings.readLevel, hlevel, Except.map]

/-- Parts that can be complied with lead to their report, unless the environment is not usable. -/
theorem run_of_valid (h : Splits arguments parts) (hvalid : Valid parts.items) :
    run arguments levelText? =
      match Settings.ofEnvironment levelText? with
      | .error cause => .refused cause.message
      | .ok _ => .ofReport parts.report := by
  have hread := read_of_splits h
  rw [foldlM_add_of_valid hvalid, ok_bind] at hread
  rw [run, hread]
  cases Settings.ofEnvironment levelText? with
  | error cause => rfl
  | ok settings => exact congrArg Outcome.ofReport (report_collect parts)

/-- With an environment that is usable they lead to their report in any case. -/
theorem run_of_usable (h : Splits arguments parts) (hvalid : Valid parts.items)
    (husable : Usable levelText?) : run arguments levelText? = .ofReport parts.report := by
  rw [run_of_valid h hvalid]
  rcases ofEnvironment_cases levelText? with ⟨_, settings, hsettings⟩ | ⟨hunusable, _⟩
  · rw [hsettings]
  · exact absurd husable hunusable

/-- Arguments that cannot be read are refused with the message of their error. -/
theorem run_of_error {e : UsageError} (h : read arguments = .error e) :
    run arguments levelText? = .refused e.message := by
  rw [run, h]

/-- Parts that cannot be complied with are refused, and so is every use with an environment that is
not usable. -/
theorem run_of_not_valid (h : Splits arguments parts)
    (hnot : ¬(Valid parts.items ∧ Usable levelText?)) :
    ∃ complaint, run arguments levelText? = .refused complaint := by
  by_cases hvalid : Valid parts.items
  · rcases ofEnvironment_cases levelText? with ⟨husable, _⟩ | ⟨_, cause, hcause⟩
    · exact absurd ⟨hvalid, husable⟩ hnot
    · exact ⟨cause.message, by rw [run_of_valid h hvalid, hcause]⟩
  · have hread := read_of_splits h
    obtain ⟨e, hfold⟩ := foldlM_add_of_not_valid hvalid
    rw [hfold, error_bind] at hread
    exact ⟨e.message, run_of_error hread⟩

/-- Arguments that are not made of parts, and do not ask about the program, are refused. -/
theorem run_of_not_splits (hasks : ¬Asks arguments) (h : ¬∃ parts, Splits arguments parts) :
    ∃ complaint, run arguments levelText? = .refused complaint := by
  cases hread : read arguments with
  | error e => exact ⟨e.message, run_of_error hread⟩
  | ok invocation =>
    rcases understood_of_readFrom hread with hsplits | hasked
    · exact absurd hsplits h
    · exact absurd hasked hasks

/-! ## Parts in another order -/

/-- The report that parts ask for depends on their expressions, on the assignments, and on whether
the tokens are asked for. -/
theorem Parts.report_congr {parts parts' : Parts}
    (hexpressions : parts.expressions = parts'.expressions)
    (hassignments : assignments parts.items = assignments parts'.items)
    (htokens : Part.tokens ∈ parts.items ↔ Part.tokens ∈ parts'.items) :
    parts.report = parts'.report := by
  have hdecide : decide (Part.tokens ∈ parts.items) = decide (Part.tokens ∈ parts'.items) :=
    decide_eq_decide.mpr htokens
  rw [report, report, hexpressions, hassignments, hdecide]

namespace Interleaves

variable {items others : List Part}

/-- Parts in another order are taken for what they are, too. -/
theorem splits (h : Interleaves items others) (hlegal : ∀ part ∈ items, part.Legal) :
    Splits (Parts.texts ⟨others, none⟩) ⟨others, none⟩ := by
  refine ⟨?_, rfl⟩
  intro part hpart
  exact hlegal part (h.perm.mem_iff.mpr hpart)

/-- They can be complied with, if they could before. -/
theorem valid (h : Interleaves items others) (hvalid : Valid items) : Valid others := by
  have hlevels : (values .logLevel items).Perm (values .logLevel others) := h.perm.filterMap _
  have hcount : items.count .tokens = others.count .tokens := h.perm.count_eq _
  refine ⟨?_, ?_, ?_, ?_⟩
  · exact hcount ▸ hvalid.tokens
  · exact hlevels.length_eq ▸ hvalid.logLevel
  · exact h.assignments ▸ hvalid.assignments
  · intro value hvalue
    exact hvalid.levels value (hlevels.mem_iff.mpr hvalue)

/-- They ask for the same report. -/
theorem report_eq (h : Interleaves items others) :
    Parts.report ⟨items, none⟩ = Parts.report ⟨others, none⟩ := by
  have hexpressions : Parts.expressions ⟨items, none⟩ = Parts.expressions ⟨others, none⟩ :=
    congrArg (· ++ []) h.expressions
  have hassignments : CommandLine.assignments items = CommandLine.assignments others :=
    congrArg (List.filterMap Assignment.ofText?) h.assignments
  exact Parts.report_congr hexpressions hassignments h.perm.mem_iff

end Interleaves

/-! ## Outcomes -/

/-- What the program leaves behind, for any arguments that do not ask about it. Arguments that are
not made of parts are refused, and so are parts that cannot be complied with, and an environment
that is not usable. All others lead to the report that the parts ask for, and to an exit code by its
failures. Neither log levels nor the order of the parts make a difference, as long as expressions
and assignments stay in order among themselves. -/
theorem run_reports :
    (∀ arguments levelText?, ¬Asks arguments → (¬∃ parts, Splits arguments parts) →
      (run arguments levelText?).exitCode = 2 ∧ (run arguments levelText?).output = "") ∧
    (∀ arguments levelText? parts, Splits arguments parts →
      ¬(Valid parts.items ∧ Usable levelText?) →
      (run arguments levelText?).exitCode = 2 ∧ (run arguments levelText?).output = "") ∧
    (∀ arguments levelText? parts, Splits arguments parts →
      Valid parts.items → Usable levelText? →
      (run arguments levelText?).output = parts.report.output ∧
        (run arguments levelText?).exitCode = if parts.report.failures = 0 then 0 else 1) ∧
    (∀ arguments arguments' levelText? levelText?' parts parts',
      Splits arguments parts → Valid parts.items → Usable levelText? →
      Splits arguments' parts' → Valid parts'.items → Usable levelText?' →
      parts.expressions = parts'.expressions → assignments parts.items = assignments parts'.items →
      (Part.tokens ∈ parts.items ↔ Part.tokens ∈ parts'.items) →
      run arguments levelText? = run arguments' levelText?') ∧
    ∀ items items' levelText?, (∀ part ∈ items, part.Legal) → Valid items →
      Interleaves items items' →
      Splits (Parts.texts ⟨items', none⟩) ⟨items', none⟩ ∧ Valid items' ∧
        run (Parts.texts ⟨items', none⟩) levelText? =
          run (Parts.texts ⟨items, none⟩) levelText? := by
  refine ⟨?_, ?_, ?_, ?_, ?_⟩
  · intro arguments levelText? hasks hsplits
    obtain ⟨complaint, hrun⟩ := run_of_not_splits hasks hsplits
    rw [hrun]
    exact ⟨rfl, rfl⟩
  · intro arguments levelText? parts hsplits hnot
    obtain ⟨complaint, hrun⟩ := run_of_not_valid hsplits hnot
    rw [hrun]
    exact ⟨rfl, rfl⟩
  · intro arguments levelText? parts hsplits hvalid husable
    rw [run_of_usable hsplits hvalid husable]
    exact ⟨rfl, rfl⟩
  · intro arguments arguments' levelText? levelText?' parts parts' hsplits hvalid husable
      hsplits' hvalid' husable' hexpressions hassignments htokens
    have hreport := Parts.report_congr hexpressions hassignments htokens
    rw [run_of_usable hsplits hvalid husable, run_of_usable hsplits' hvalid' husable', hreport]
  · intro items items' levelText? hlegal hvalid hinterleaves
    have hsplits' := hinterleaves.splits hlegal
    have hvalid' := hinterleaves.valid hvalid
    refine ⟨hsplits', hvalid', ?_⟩
    rw [run_of_valid hsplits' hvalid', run_of_valid ⟨hlegal, rfl⟩ hvalid, hinterleaves.report_eq]

/-- Two expressions, of which the second cannot be read, among options of all kinds. -/
def mixed : List String :=
  ["--set=a=no", "!a", "--tokens", "--log-level", "INFO", "a b", "--set", "b = 1"]

/-- The parts that these arguments are made of. -/
def mixedParts : List Part :=
  [.valued .set "a=no" true, .expression "!a", .tokens, .valued .logLevel "INFO" false,
    .expression "a b", .valued .set "b = 1" false]

/-- Another order, other log levels and other ways to attach values make no difference. An
assignment without a value is refused, and so is an option that does not exist. -/
theorem run_reports_of_mixed :
    (run mixed none).output =
        "!a\n- - - -\ntokens: Operator:\"!\"@0 Word:\"a\"@1\ntree:   [ NOT a() ]\nresult: true\n\n"
          ++ "a b\n- - - -\nerror:  invalid expression: expected an operator before this operand "
          ++ "at byte 2 (zero-based)\n\n" ∧
      (run mixed none).exitCode = 1 ∧
      run mixed none =
        run ["--tokens", "--set", "a=no", "!a", "--set=b = 1", "--", "a b"] (some "trace") ∧
      run ["!a", "a b", "--log-level", "INFO", "--set=a=no", "--set", "b = 1", "--tokens"] none =
        run mixed none ∧
      (run ["--set", "a"] none).exitCode = 2 ∧ (run ["-x"] none).exitCode = 2 := by
  have hsplits : Splits mixed ⟨mixedParts, none⟩ := ⟨by decide, by decide⟩
  have hvalid : Valid mixedParts := ⟨by decide, by decide, by decide, by decide⟩
  have hother : Splits ["--tokens", "--set", "a=no", "!a", "--set=b = 1", "--", "a b"]
      ⟨[.tokens, .valued .set "a=no" false, .expression "!a", .valued .set "b = 1" true],
        some ["a b"]⟩ :=
    ⟨by decide, by decide⟩
  have hother_valid : Valid [.tokens, .valued .set "a=no" false, .expression "!a",
      .valued .set "b = 1" true] :=
    ⟨by decide, by decide, by decide, by decide⟩
  have hinterleaves : Interleaves mixedParts
      [.expression "!a", .expression "a b", .valued .logLevel "INFO" false,
        .valued .set "a=no" true, .valued .set "b = 1" false, .tokens] :=
    ⟨by decide, by decide, by decide⟩
  have hset : Splits ["--set", "a"] ⟨[.valued .set "a" false], none⟩ := ⟨by decide, by decide⟩
  have hset_invalid : ¬Valid [.valued .set "a" false] := fun h =>
    absurd (h.assignments "a" (by decide)) (by decide)
  have hoption : ¬∃ parts, Splits ["-x"] parts :=
    not_splits_of_unknown (by decide : Argument.ofText "-x" = .unknown "-x")
  have hasks : ¬Asks ["-x"] := fun h => absurd h.exists_mem_takeWhile (by decide)
  have husable : Usable none := nofun
  have husable_trace : Usable (some "trace") := by
    rintro _ ⟨⟩
    decide
  obtain ⟨hunsplit, hinvalid, hreport, hlevels, horder⟩ := run_reports
  obtain ⟨houtput, hexit⟩ := hreport _ none _ hsplits hvalid husable
  refine ⟨?_, ?_, ?_, ?_, ?_, ?_⟩
  · rw [houtput]
    decide +kernel
  · rw [hexit]
    decide +kernel
  · exact hlevels _ _ _ _ _ _ hsplits hvalid husable hother hother_valid husable_trace
      (by decide) (by decide) (by decide)
  · exact (horder _ _ none hsplits.legal hvalid hinterleaves).2.2
  · exact (hinvalid _ none _ hset fun h => hset_invalid h.1).1
  · exact (hunsplit _ none hasks hoption).1

end PredicateExpr.CommandLine

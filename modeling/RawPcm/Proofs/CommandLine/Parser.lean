import RawPcm.CommandLine.Command
import RawPcm.Proofs.Text.Digits
import Mathlib.Tactic.MkIffOfInductiveProp

/-! What is asked of a parser of arguments. The parser of the program does it. -/
namespace RawPcm.CommandLine

namespace ConvertCommand

def Sensible (order : ByteOrder) (s : Setting) (text : String) : Prop :=
  match s with
  | .source | .target => (format? order text).isSome
  | .via => (Via.ofText? text).isSome
  | .chunkSamples => (size? text).isSome

/-- A setting has the value that a text says, or it is left out, as only the value type may be. -/
def Takes (order : ByteOrder) (k : ConvertCommand) : Setting → Option String → Prop
  | .source, text => text.bind (format? order) = some k.conversion.source
  | .target, text => text.bind (format? order) = some k.conversion.target
  | .via, text => (∀ v ∈ text, Sensible order .via v) ∧ text.bind Via.ofText? = k.via
  | .chunkSamples, text => text.bind size? = some k.conversion.chunkSamples

end ConvertCommand

open ConvertCommand

namespace Parser

/-- A command for a conversion, with what the argument list says by itself. -/
structure Answers (p : Parser) (env : Environment) (args : List String) (g : Given)
    (k : ConvertCommand) : Prop where
  given : p.given? args = some g
  command : p.command env args = .ok (.convert k)

structure Lawful (order : ByteOrder) (p : Parser) : Prop where
  given {env args k} : p.command env args = .ok (.convert k) → ∃ g, p.given? args = some g ∧
    k.conversion.strict = g.strict ∧ k.input = g.input ∧ k.output = g.output
  fromOption {env args g k s} {text : String} : p.Answers env args g k →
    g.text? s = some text → k.Takes order s text
  fromVariable {env args g k s} {text : String} : p.Answers env args g k →
    g.text? s = none → env.get? s.variableName = some text → k.Takes order s text
  fromDefault {env args g k s} : p.Answers env args g k →
    g.text? s = none → env.get? s.variableName = none → k.Takes order s (default? s)
  accepts {env args g} : p.given? args = some g →
    (∀ s, ∀ text ∈ g.text? s, Sensible order s text) →
    (∀ s, ∀ text ∈ env.get? s.variableName, Sensible order s text) →
    (∀ s, g.text? s = none → env.get? s.variableName = none → default? s = none →
      s = .via ∧ g.bare s = false) →
    ∃ k, p.command env args = .ok (.convert k)

end Parser

theorem bind_eq_ok {ε α β : Type} (x : Except ε α) (f : α → Except ε β) (b : β) :
    (x >>= f) = .ok b ↔ ∃ a, x = .ok a ∧ f a = .ok b := by
  cases x <;> simp [bind, Except.bind]

namespace Arguments
variable {α : Type} (a : Arguments)

theorem head?_valuesOf (option : String) (fallback default : Option String) :
    (a.valuesOf option fallback default).head? =
      (a.given option).head?.or (fallback.or default) := by
  unfold valuesOf
  cases a.given option <;> cases fallback <;> cases default <;> rfl

theorem forall_valuesOf (option : String) (fallback : Option String) {default : Option String}
    {p : String → Prop} (hd : ∀ v ∈ default, p v) :
    (∀ v ∈ a.valuesOf option fallback default, p v) ↔
      ∀ v ∈ a.given option ++ fallback.toList, p v := by
  unfold valuesOf
  cases a.given option ++ fallback.toList with
  | nil => simpa using hd
  | cons v vs => rfl

theorem length_given_le (option : String) : (a.given option).length ≤ a.count option := by
  have hg : a.given option = (a.values.filter fun v => v.1 = option).filterMap (·.2) := by
    rw [List.filterMap_filter, given]
    simp only [decide_eq_true_eq]
  rw [hg]
  exact List.length_filterMap_le ..

theorem given_eq_toList {option : String} (h : a.count option ≤ 1) :
    a.given option = (a.given option).head?.toList := by
  have hl := Nat.le_trans (a.length_given_le option) h
  cases hg : a.given option with
  | nil => rfl
  | cons v vs =>
    rw [hg, List.length_cons] at hl
    rw [List.length_eq_zero_iff.mp (Nat.le_zero.mp (Nat.le_of_succ_le_succ hl))]
    rfl

/-- An option comes out as `r` if it is given once at most, with a value or with one to fall back on,
and all its values make sense. The first of them counts. -/
theorem read?_eq_ok_iff (option : String) (fallback default : Option String)
    (read : String → Option α) (r : Option α) :
    a.read? option fallback default read = .ok r ↔
      a.count option ≤ 1 ∧
        (a.count option = 0 ∨ (a.valuesOf option fallback default).head? ≠ none) ∧
        (∀ v ∈ a.valuesOf option fallback default, (read v).isSome) ∧
        (a.valuesOf option fallback default).head?.bind read = r := by
  unfold read?
  by_cases h1 : 1 < a.count option
  · simp [h1, Nat.not_le.mpr h1]
  rw [if_neg h1]
  cases a.valuesOf option fallback default with
  | nil => by_cases h0 : a.count option = 0 <;> simp [h0]
  | cons v vs =>
    have hr : (v :: vs).find? (fun v => (read v).isNone) = none ↔
        ∀ w ∈ v :: vs, (read w).isSome := by
      simp only [List.find?_eq_none, Option.isNone_iff_eq_none, Option.isSome_iff_ne_none, ne_eq]
    by_cases hv : ∀ w ∈ v :: vs, (read w).isSome
    · simp only [hr.mpr hv, Except.ok.injEq]
      exact ⟨fun h => ⟨Nat.not_lt.mp h1, .inr (by simp), hv, h⟩, fun h => h.2.2.2⟩
    · obtain ⟨w, hw⟩ := Option.ne_none_iff_exists'.mp (mt hr.mp hv)
      simp only [hw, reduceCtorEq, false_iff]
      exact fun h => hv h.2.2.1

end Arguments

theorem required_eq_ok_iff {α : Type} (name : String) (value : Option α) (x : α) :
    required name value = .ok x ↔ value = some x := by
  cases value <;> simp [required]

namespace ConvertCommand
variable {α : Type} (a : Arguments) (env : Environment)

def text? (s : Setting) : Option String :=
  (a.given s.option).head?.or ((env.get? s.variableName).or (default? s))

@[mk_iff]
structure Resolves (s : Setting) (read : String → Option α) (r : Option α) : Prop where
  once : a.count s.option ≤ 1
  answered : a.count s.option = 0 ∨ text? a env s ≠ none
  readable : ∀ v ∈ a.given s.option ++ (env.get? s.variableName).toList, (read v).isSome
  value : (text? a env s).bind read = r

theorem size?_defaultChunk : size? defaultChunk = some 4096 := by decide +kernel

variable {a env} {order : ByteOrder} {k : ConvertCommand}

theorem setting?_eq_ok_iff {s : Setting} (read : String → Option α)
    (hd : ∀ v ∈ default? s, (read v).isSome) (r : Option α) :
    setting? a env s read = .ok r ↔ Resolves a env s read r := by
  rw [setting?, Arguments.read?_eq_ok_iff, Arguments.head?_valuesOf,
    Arguments.forall_valuesOf a _ _ hd, resolves_iff, text?]

theorem ofArguments_eq_ok_iff : ofArguments order a env = .ok k ↔
    Resolves a env .source (format? order) (some k.conversion.source) ∧
      Resolves a env .target (format? order) (some k.conversion.target) ∧
      Resolves a env .via Via.ofText? k.via ∧
      Resolves a env .chunkSamples size? (some k.conversion.chunkSamples) ∧
      a.switch? "strict" = .ok k.conversion.strict ∧
      a.operand? 0 "input" = .ok k.input ∧ a.operand? 1 "output" = .ok k.output := by
  have hchunk (r : Option Nat) : setting? a env .chunkSamples size? = .ok r ↔
      Resolves a env .chunkSamples size? r :=
    setting?_eq_ok_iff size? (fun v hv => by cases hv; exact size?_defaultChunk ▸ rfl) r
  have hrest {α : Type} {s : Setting} (h : default? s = none) (read : String → Option α)
      (r : Option α) : setting? a env s read = .ok r ↔ Resolves a env s read r :=
    setting?_eq_ok_iff read (fun v hv => by rw [h] at hv; cases hv) r
  simp only [ofArguments, bind_eq_ok, hrest (s := .source) rfl, hrest (s := .target) rfl,
    hrest (s := .via) rfl, hchunk, required_eq_ok_iff]
  constructor
  · rintro ⟨_, hs, _, ht, _, hv, _, hc, _, hstrict, _, rfl, _, rfl, _, rfl, _, hi, _, ho, hk⟩
    cases hk
    exact ⟨hs, ht, hv, hc, hstrict, hi, ho⟩
  · rintro ⟨hs, ht, hv, hc, hstrict, hi, ho⟩
    exact ⟨_, hs, _, ht, _, hv, _, hc, _, hstrict, _, rfl, _, rfl, _, rfl, _, hi, _, ho, rfl⟩

theorem mem_text?_via {text : String} (h : text ∈ text? a env .via) :
    text ∈ a.given Setting.via.option ++ (env.get? Setting.via.variableName).toList := by
  rw [List.mem_append, Option.mem_toList]
  rcases Option.or_eq_some_iff.mp h with hg | ⟨-, he⟩
  · exact .inl (List.mem_of_head? hg)
  · exact .inr (by simpa [default?] using he)

theorem takes_text? (h : ofArguments order a env = .ok k) (s : Setting) :
    k.Takes order s (text? a env s) := by
  obtain ⟨hs, ht, hv, hc, -⟩ := ofArguments_eq_ok_iff.mp h
  cases s with
  | source => exact hs.value
  | target => exact ht.value
  | via => exact ⟨fun text ht => hv.readable text (mem_text?_via ht), hv.value⟩
  | chunkSamples => exact hc.value

theorem given?_eq_some_iff {g : Given} : given? a = some g ↔
    (∀ s : Setting, a.count s.option ≤ 1) ∧ ∃ strict input output,
      a.switch? "strict" = .ok strict ∧ a.operand? 0 "input" = .ok input ∧
        a.operand? 1 "output" = .ok output ∧ account a strict input output = g := by
  have hall : (Setting.all.all fun s => a.count s.option ≤ 1) ↔
      ∀ s : Setting, a.count s.option ≤ 1 := by
    simp only [List.all_eq_true, decide_eq_true_eq]
    exact ⟨fun h s => h s (by cases s <;> decide), fun h s _ => h s⟩
  rw [given?]
  by_cases hc : ∀ s : Setting, a.count s.option ≤ 1
  · rw [if_pos (hall.mpr hc)]
    cases a.switch? "strict" <;> cases a.operand? 0 "input" <;> cases a.operand? 1 "output" <;>
      simp [hc]
  · rw [if_neg (mt hall.mp hc)]
    simp [hc]

theorem given?_of_ofArguments (h : ofArguments order a env = .ok k) :
    given? a = some (account a k.conversion.strict k.input k.output) := by
  obtain ⟨hs, ht, hv, hc, hstrict, hi, ho⟩ := ofArguments_eq_ok_iff.mp h
  refine given?_eq_some_iff.mpr ⟨fun s => ?_, _, _, _, hstrict, hi, ho, rfl⟩
  cases s with
  | source => exact hs.once
  | target => exact ht.once
  | via => exact hv.once
  | chunkSamples => exact hc.once

section Sensible
variable {s : Setting} {read : String → Option α}

theorem resolves_of_sensible (hc : a.count s.option ≤ 1)
    (ha : a.count s.option = 0 ∨ text? a env s ≠ none)
    (hg : ∀ text ∈ (a.given s.option).head?, (read text).isSome)
    (he : ∀ text ∈ env.get? s.variableName, (read text).isSome) :
    Resolves a env s read ((text? a env s).bind read) := by
  refine ⟨hc, ha, fun v hv => ?_, rfl⟩
  rw [a.given_eq_toList hc, List.mem_append, Option.mem_toList, Option.mem_toList] at hv
  exact hv.elim (hg v) (he v)

theorem exists_value (hg : ∀ text ∈ (a.given s.option).head?, (read text).isSome)
    (he : ∀ text ∈ env.get? s.variableName, (read text).isSome)
    (hd : ∀ text ∈ default? s, (read text).isSome) (hne : text? a env s ≠ none) :
    ∃ x, (text? a env s).bind read = some x := by
  obtain ⟨text, ht⟩ := Option.ne_none_iff_exists'.mp hne
  have hs : (read text).isSome := by
    rcases Option.or_eq_some_iff.mp ht with h | ⟨-, h⟩
    · exact hg text h
    · rcases Option.or_eq_some_iff.mp h with h | ⟨-, h⟩
      · exact he text h
      · exact hd text h
  obtain ⟨x, hx⟩ := Option.isSome_iff_exists.mp hs
  exact ⟨x, by rw [ht, Option.bind_some, hx]⟩

end Sensible

theorem exists_ofArguments {g : Given} (hg : given? a = some g)
    (hgiven : ∀ s, ∀ text ∈ g.text? s, Sensible order s text)
    (henv : ∀ s : Setting, ∀ text ∈ env.get? s.variableName, Sensible order s text)
    (hrest : ∀ s : Setting, g.text? s = none → env.get? s.variableName = none → default? s = none →
      s = .via ∧ g.bare s = false) :
    ∃ k, ofArguments order a env = .ok k := by
  obtain ⟨hc, strict, input, output, hstrict, hi, ho, rfl⟩ := given?_eq_some_iff.mp hg
  have hnone (s : Setting) (h : text? a env s = none) : s = .via ∧ a.count s.option = 0 := by
    obtain ⟨hg, he, hd⟩ : (a.given s.option).head? = none ∧ env.get? s.variableName = none ∧
        default? s = none := by simpa [text?] using h
    obtain ⟨hs, hb⟩ := hrest s hg he hd
    rw [List.head?_eq_none_iff] at hg
    exact ⟨hs, by simpa [account, hg] using hb⟩
  have ha (s : Setting) : a.count s.option = 0 ∨ text? a env s ≠ none := by
    by_cases h : text? a env s = none
    · exact .inl (hnone s h).2
    · exact .inr h
  have hne (s : Setting) (h : s ≠ .via) : text? a env s ≠ none := fun ht => h (hnone s ht).1
  obtain ⟨source, hsource⟩ := exists_value (hgiven .source) (henv .source) nofun (hne .source nofun)
  obtain ⟨target, htarget⟩ := exists_value (hgiven .target) (henv .target) nofun (hne .target nofun)
  obtain ⟨chunk, hchunk⟩ := exists_value (hgiven .chunkSamples) (henv .chunkSamples)
    (fun v hv => by cases hv; exact size?_defaultChunk ▸ rfl) (hne .chunkSamples nofun)
  refine ⟨⟨⟨source, target, chunk, strict⟩, (text? a env .via).bind Via.ofText?, input, output⟩,
    ofArguments_eq_ok_iff.mpr ⟨?_, ?_, ?_, ?_, hstrict, hi, ho⟩⟩
  · exact hsource ▸ resolves_of_sensible (hc _) (ha _) (hgiven .source) (henv .source)
  · exact htarget ▸ resolves_of_sensible (hc _) (ha _) (hgiven .target) (henv .target)
  · exact resolves_of_sensible (hc _) (ha _) (hgiven .via) (henv .via)
  · exact hchunk ▸ resolves_of_sensible (hc _) (ha _) (hgiven .chunkSamples) (henv .chunkSamples)

end ConvertCommand

namespace Command
variable {order : ByteOrder} {env : Environment} {args : List String} {k : ConvertCommand}

theorem parse_convert_eq_ok_iff : parse order env ("convert" :: args) = .ok (.convert k) ↔
    ∃ a, Arguments.parse ConvertCommand.grammar args = .ok a ∧
      ConvertCommand.ofArguments order a env = .ok k := by
  simp only [parse, bind_eq_ok]
  refine exists_congr fun a => and_congr_right fun _ => ?_
  cases ConvertCommand.ofArguments order a env <;> simp [orMisuse, pure, Except.pure]

theorem exists_of_parse_eq_ok (h : parse order env args = .ok (.convert k)) :
    ∃ rest a, args = "convert" :: rest ∧ Arguments.parse ConvertCommand.grammar rest = .ok a ∧
      ConvertCommand.ofArguments order a env = .ok k := by
  unfold parse at h
  split at h
  · obtain ⟨a, ha, hk⟩ := parse_convert_eq_ok_iff.mp h
    exact ⟨_, a, rfl, ha, hk⟩
  all_goals simp [bind_eq_ok, pure, Except.pure, throw, throwThe, MonadExceptOf.throw] at h

theorem given?_convert {a : Arguments} (h : Arguments.parse ConvertCommand.grammar args = .ok a) :
    given? ("convert" :: args) = ConvertCommand.given? a := by
  simp [given?, h]

theorem takes_of_answers {g : Given} (h : (parser order).Answers env args g k) (s : Setting) :
    k.Takes order s
      ((g.text? s).or ((env.get? s.variableName).or (ConvertCommand.default? s))) := by
  obtain ⟨rest, a, rfl, ha, hk⟩ := exists_of_parse_eq_ok h.command
  have hg : given? ("convert" :: rest) = some g := h.given
  rw [given?_convert ha, ConvertCommand.given?_of_ofArguments hk] at hg
  cases hg
  exact ConvertCommand.takes_text? hk s

theorem parser_lawful (order : ByteOrder) : (parser order).Lawful order where
  given h := by
    obtain ⟨rest, a, rfl, ha, hk⟩ := exists_of_parse_eq_ok h
    exact ⟨_, (given?_convert ha).trans (ConvertCommand.given?_of_ofArguments hk), rfl, rfl, rfl⟩
  fromOption {env args g k s text} h ht := by
    simpa only [ht, Option.some_or] using takes_of_answers h s
  fromVariable {env args g k s text} h ht he := by
    simpa only [ht, he, Option.none_or, Option.some_or] using takes_of_answers h s
  fromDefault {env args g k s} h ht he := by
    simpa only [ht, he, Option.none_or] using takes_of_answers h s
  accepts {env args g} hg hgiven henv hrest := by
    have hg : given? args = some g := hg
    unfold given? at hg
    split at hg
    · rename_i rest
      split at hg
      · rename_i a ha
        obtain ⟨k, hk⟩ := ConvertCommand.exists_ofArguments hg hgiven henv hrest
        exact ⟨k, parse_convert_eq_ok_iff.mpr ⟨a, ha, hk⟩⟩
      · cases hg
    · cases hg

end Command
end RawPcm.CommandLine

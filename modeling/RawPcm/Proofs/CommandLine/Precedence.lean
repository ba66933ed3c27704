import RawPcm.CommandLine.Machine
import RawPcm.Proofs.CommandLine.Parser
import Mathlib.Data.List.TakeWhile

/-! Where settings come from: the command line, the configuration, the environment, the defaults, in
this order. -/
namespace RawPcm

theorem Setting.variableName_injective : Function.Injective Setting.variableName := by
  intro s s' h
  cases s <;> cases s' <;> first | rfl | exact absurd h (by decide)

namespace Config
variable (c : Config)

/-- A value that the configuration has for a setting is one that a variable can hold. -/
def fits (s : Setting) : Bool := (c.text? s).all fun value => '\x00' ∉ value.toList

def put (env : Environment) (s : Setting) : Environment :=
  match c.text? s with
  | none => env
  | some value => env.set s.variableName value

theorem get?_put_self (env : Environment) (s : Setting) :
    (c.put env s).get? s.variableName = (c.text? s).or (env.get? s.variableName) := by
  unfold put
  cases c.text? s with
  | none => rfl
  | some value => exact env.get?_set_self s.variableName value

theorem get?_put_of_ne (env : Environment) {s : Setting} {name : String}
    (h : s.variableName = name → c.text? s = none) : (c.put env s).get? name = env.get? name := by
  unfold put
  cases hc : c.text? s with
  | none => rfl
  | some value => exact env.get?_set_of_ne value fun hn => by simp [h hn.symm] at hc

theorem env_exportEach (ss : List Setting) (env : Environment) :
    (c.exportEach ss env).env = (ss.takeWhile c.fits).foldl c.put env := by
  induction ss generalizing env with
  | nil => rfl
  | cons s ss ih =>
    cases hc : c.text? s with
    | none => simp [exportEach, fits, put, hc, ih]
    | some value =>
      by_cases hn : '\x00' ∈ value.toList <;> simp [exportEach, fits, put, hc, hn, ih]

theorem fault_exportEach (ss : List Setting) (env : Environment) :
    (c.exportEach ss env).fault = none ↔ ∀ s ∈ ss, c.fits s := by
  induction ss generalizing env with
  | nil => simp [exportEach]
  | cons s ss ih =>
    cases hc : c.text? s with
    | none => simp [exportEach, fits, hc, ih]
    | some value =>
      by_cases hn : '\x00' ∈ value.toList <;> simp [exportEach, fits, hc, hn, ih]

theorem get?_foldl_put_of_ne (ss : List Setting) (env : Environment) {name : String}
    (h : ∀ s ∈ ss, s.variableName = name → c.text? s = none) :
    (ss.foldl c.put env).get? name = env.get? name := by
  induction ss generalizing env with
  | nil => rfl
  | cons s ss ih =>
    rw [List.foldl_cons, ih _ fun s' hs => h s' (List.mem_cons_of_mem s hs)]
    exact c.get?_put_of_ne env (h s List.mem_cons_self)

theorem get?_foldl_put {ss : List Setting} (hss : ss.Nodup) (env : Environment) {s : Setting}
    (hs : s ∈ ss) : (ss.foldl c.put env).get? s.variableName =
      (c.text? s).or (env.get? s.variableName) := by
  induction ss generalizing env with
  | nil => cases hs
  | cons s' ss ih =>
    obtain ⟨hn, hss⟩ := List.nodup_cons.mp hss
    rw [List.foldl_cons]
    cases hs with
    | head =>
      rw [get?_foldl_put_of_ne, get?_put_self]
      intro s' hs' h
      exact absurd (Setting.variableName_injective h ▸ hs') hn
    | tail _ hs =>
      rw [ih hss _ hs, get?_put_of_ne]
      intro h
      exact absurd (Setting.variableName_injective h ▸ hs) hn

end Config

theorem Setting.mem_all (s : Setting) : s ∈ Setting.all := by cases s <;> decide

namespace Config
variable (c : Config)

theorem fault_exportTo (env : Environment) :
    (c.exportTo env).fault = none ↔ ∀ s, c.fits s := by
  rw [exportTo, fault_exportEach]
  exact ⟨fun h s => h s s.mem_all, fun h s _ => h s⟩

theorem get?_exportTo_of_ne (env : Environment) {name : String}
    (h : ∀ s : Setting, s.variableName = name → c.text? s = none) :
    (c.exportTo env).env.get? name = env.get? name := by
  rw [exportTo, env_exportEach]
  exact c.get?_foldl_put_of_ne _ env fun s _ => h s

theorem get?_exportTo {env : Environment} (h : (c.exportTo env).fault = none) (s : Setting) :
    (c.exportTo env).env.get? s.variableName = (c.text? s).or (env.get? s.variableName) := by
  have hf := (c.fault_exportTo env).mp h
  rw [exportTo, env_exportEach, List.takeWhile_eq_self_iff.mpr fun s _ => hf s]
  exact c.get?_foldl_put (by decide) env s.mem_all

end Config

namespace CommandLine
open ConvertCommand (Takes Sensible default?)

/-- A size is read as it is written, unless it is out of range. -/
theorem size?_toString (n : Nat) :
    size? (toString n) = if n < sizeLimit then some n else none := by
  have hd : ∀ c ∈ Nat.toDigits 10 n, c.isDigit := fun c =>
    Nat.isDigit_of_mem_toDigits (by decide) (by decide)
  have hs : toString n = String.ofList (Nat.toDigits 10 n) := by
    rw [Nat.toString_eq_repr, ← Nat.toList_repr, String.ofList_toList]
  rw [hs, size?_ofList hd Nat.toDigits_ne_nil, Nat.ofDigitChars_toDigits (by decide) (by decide)]

def text? (g : Given) (c : Config) (env : Environment) (s : Setting) : Option String :=
  (g.text? s).or ((c.text? s).or ((env.get? s.variableName).or (default? s)))

section Precedence
variable {order : ByteOrder} {p : Parser} (hp : p.Lawful order) {c : Config} {env : Environment}
  {args : List String} {g : Given} {k : ConvertCommand}

section
include hp

theorem Parser.Lawful.takes (h : p.Answers env args g k) (s : Setting) :
    k.Takes order s ((g.text? s).or ((env.get? s.variableName).or (default? s))) := by
  cases hg : g.text? s with
  | some text => exact hp.fromOption h hg
  | none =>
    cases he : env.get? s.variableName with
    | some text => exact hp.fromVariable h hg he
    | none => exact hp.fromDefault h hg he

/-- By the time the arguments are read the configuration stands where the variables were. -/
theorem takes_text? (hf : (c.exportTo env).fault = none)
    (h : p.Answers (c.exportTo env).env args g k) (s : Setting) :
    k.Takes order s (text? g c env s) := by
  have ht := hp.takes h s
  rwa [c.get?_exportTo hf, Option.or_assoc] at ht

end

theorem via_of_config (h : k.Takes order .via (text? g c env .via))
    (hg : g.text? .via = none) {v : Via} (hc : c.via = some v) : k.via = some v := by
  rw [← h.2]
  simp [text?, hg, Config.text?, hc, Via.ofText?_text]

theorem chunkSamples_of_config (h : k.Takes order .chunkSamples (text? g c env .chunkSamples))
    (hg : g.text? .chunkSamples = none) {n : Nat} (hc : c.chunkSamples = some n) :
    k.conversion.chunkSamples = n := by
  simp only [Takes, text?, hg, Config.text?, hc, Option.none_or, Option.map_some, Option.some_or,
    Option.bind_some, size?_toString, Option.ite_none_right_eq_some, Option.some.injEq] at h
  exact h.2.symm

end Precedence

section
variable {m : Type → Type} [Monad m] [LawfulMonad m] (h : Host m) (p : Parser)

theorem runConfigured_getD (env : Environment) (found : Option Config) (args : List String) :
    runConfigured h p env found args = runConfigured h p env (some (found.getD .empty)) args := by
  cases found with
  | none => simp [runConfigured, applyConfig, Config.exportTo, Config.exportEach, Config.empty,
      Setting.all, Config.text?]
  | some c => rfl

theorem runConfigured_of_fault {env : Environment} {found : Option Config} {f : Fault}
    (hf : ((found.getD .empty).exportTo env).fault = some f) (args : List String) :
    runConfigured h p env found args = (do
      ((found.getD .empty).exportTo env).log.forM h.log
      conclude h (.error f)) := by
  rw [runConfigured_getD]
  simp [runConfigured, applyConfig, hf]

theorem runConfigured_of_exportTo {env : Environment} {found : Option Config}
    (hf : ((found.getD .empty).exportTo env).fault = none) (args : List String) :
    runConfigured h p env found args = (do
      ((found.getD .empty).exportTo env).log.forM h.log
      runArguments h p ((found.getD .empty).exportTo env).env args) := by
  rw [runConfigured_getD]
  simp [runConfigured, applyConfig, hf]

/-- The command line comes first, then the configuration, then the environment as the program finds
it, then the default. Where no value type is given, the formats choose it. -/
theorem runConfigured_by_precedence {order : ByteOrder} {p : Parser} (hp : p.Lawful order)
    (env : Environment) (found : Option Config) (args : List String) :
    let c := found.getD .empty
    let e := c.exportTo env
    (∀ name, (∀ s : Setting, s.variableName = name → c.text? s = none) →
      e.env.get? name = env.get? name) ∧
    (e.fault = none ↔ ∀ s, c.fits s) ∧
    (∀ f, e.fault = some f → runConfigured h p env found args = do
      e.log.forM h.log
      conclude h (.error f)) ∧
    (e.fault = none →
      (∀ stop, p.command e.env args = .error stop → runConfigured h p env found args = do
        e.log.forM h.log
        report h args stop) ∧
      (∀ g, p.given? args = some g →
        (∀ s, ∀ text ∈ g.text? s, Sensible order s text) →
        (∀ s, ∀ text ∈ (c.text? s).or (env.get? s.variableName), Sensible order s text) →
        (∀ s, text? g c env s = none → s = .via ∧ g.bare s = false) →
        ∃ k, p.command e.env args = .ok (.convert k)) ∧
      ∀ k, p.command e.env args = .ok (.convert k) →
        (∃ g, p.given? args = some g ∧ k.conversion.strict = g.strict ∧ k.input = g.input ∧
          k.output = g.output ∧ (∀ s, k.Takes order s (text? g c env s)) ∧
          k.chosenVia = ((text? g c env .via).bind Via.ofText?).getD
            (.default k.conversion.source k.conversion.target) ∧
          (g.text? .via = none → ∀ v, c.via = some v → k.via = some v) ∧
          (g.text? .chunkSamples = none → ∀ n, c.chunkSamples = some n →
            k.conversion.chunkSamples = n)) ∧
        runConfigured h p env found args = do
          e.log.forM h.log
          conclude h (← runConvert h k)) := by
  intro c e
  refine ⟨fun name => c.get?_exportTo_of_ne env, c.fault_exportTo env,
    fun f hf => runConfigured_of_fault h p hf args, fun hf => ⟨fun stop hs => ?_,
      fun g hg hgiven hvar hrest => ?_, fun k hk => ⟨?_, ?_⟩⟩⟩
  · rw [runConfigured_of_exportTo h p hf]
    simp only [runArguments, c, e, hs]
  · refine hp.accepts hg hgiven (fun s => ?_) fun s ht he hd => hrest s ?_
    · rw [c.get?_exportTo hf]
      exact hvar s
    · rw [c.get?_exportTo hf, Option.or_eq_none_iff] at he
      simp [text?, ht, he.1, he.2, hd]
  · obtain ⟨g, hg, hstrict, hi, ho⟩ := hp.given hk
    have ht := takes_text? hp hf ⟨hg, hk⟩
    refine ⟨g, hg, hstrict, hi, ho, ht, ?_, fun hn v => via_of_config (ht .via) hn,
      fun hn n => chunkSamples_of_config (ht .chunkSamples) hn⟩
    rw [(ht .via).2, ConvertCommand.chosenVia]
  · rw [runConfigured_of_exportTo h p hf]
    simp only [runArguments, c, e, hk, runCommand]

/-- The source from the command line, the target from the configuration, although the variable for
it makes no sense, the value type from the environment and the size of a chunk by default. -/
theorem runConfigured_by_precedence_of_each_kind :
    let c : Config := ⟨some "u8le", some "f32be", none, none⟩
    let env : Environment := ⟨[("PCMCONV_TO", "pcm"), ("PCMCONV_VIA", "I64")]⟩
    let args := ["convert", "--from", "u16be", "in.raw", "out.raw"]
    let k : ConvertCommand := ⟨⟨.integer .unsigned .w16 .big, .floating .single .big, 4096, false⟩,
      some .i64, "in.raw", "out.raw"⟩
    let p := Command.parser .little
    p.Lawful .little ∧ (c.exportTo env).fault = none ∧
      p.command (c.exportTo env).env args = .ok (.convert k) ∧ k.chosenVia = .i64 ∧
      runConfigured Machine.host p env (some c) args = (do
        (c.exportTo env).log.forM Machine.host.log
        conclude Machine.host (← runConvert Machine.host k)) := by
  intro c env args k p
  have hp : p.Lawful .little := Command.parser_lawful .little
  obtain ⟨-, hfault, -, hk⟩ := runConfigured_by_precedence Machine.host hp env (some c) args
  have hf : (c.exportTo env).fault = none := hfault.mpr fun s => by cases s <;> decide +kernel
  have hc : p.command (c.exportTo env).env args = .ok (.convert k) := by decide +kernel
  obtain ⟨⟨g, hg, -, -, -, -, hvia, -⟩, hrun⟩ := (hk hf).2.2 k hc
  have hnone : (p.given? args).map (fun g => g.text? .via) = some none := by decide +kernel
  rw [hg, Option.map_some, Option.some.injEq] at hnone
  have ht : text? g c env .via = some "I64" := by
    rw [text?, hnone]
    decide +kernel
  rw [Option.getD_some, ht] at hvia
  exact ⟨hp, hf, hc, hvia.trans (by decide +kernel), hrun⟩

/-- A format is taken from the configuration although the environment names another one. -/
theorem parse_convert_not_from_variable :
    let env : Environment := ⟨[("PCMCONV_FROM", "s8le")]⟩
    let args := ["convert", "--to", "s8le", "in.raw", "out.raw"]
    let p := Command.parser .little
    ∃ c k, Config.parse? "[convert]\nfrom = \"u8le\"\n" = some c ∧
      (p.given? args).map (fun g => g.text? .source) = some none ∧
      p.command (c.exportTo env).env args = .ok (.convert k) ∧
      (env.get? Setting.source.variableName).bind (format? .little) ≠ some k.conversion.source := by
  refine ⟨⟨some "u8le", none, none, none⟩,
    ⟨⟨.integer .unsigned .w8 .little, .integer .signed .w8 .little, 4096, false⟩, none, "in.raw",
      "out.raw"⟩, ?_⟩
  decide +kernel

end
end CommandLine
end RawPcm

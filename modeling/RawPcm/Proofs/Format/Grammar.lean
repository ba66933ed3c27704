import Mathlib.Data.List.Nodup
import RawPcm.Format.Parser
import RawPcm.Proofs.Text.Digits

/-! Format names are those of a grammar. Every other text is refused as one that makes no sense. -/
namespace RawPcm

inductive NumberKind.Letter : Char → NumberKind → Prop
  | signed : Letter 's' .signedInteger
  | unsigned : Letter 'u' .unsignedInteger
  | floating : Letter 'f' .floatingPoint

inductive ByteOrder.Suffix (host : ByteOrder) : List Char → ByteOrder → Prop
  | big : Suffix host ['b', 'e'] .big
  | little : Suffix host ['l', 'e'] .little
  | native : Suffix host ['n', 'e'] host

def NumberKind.widths : NumberKind → List Nat
  | floatingPoint => [32, 64]
  | _ => [8, 16, 24, 32, 64]

/-- A name: the letter of a kind, one or two decimal digits, the letters of a byte order. -/
inductive Format.Names (host : ByteOrder) : List Char → NumberKind → Nat → ByteOrder → Prop
  | intro {c : Char} {k : NumberKind} {digits suffix : List Char} {o : ByteOrder}
      (letter : NumberKind.Letter c k) (length : digits.length = 1 ∨ digits.length = 2)
      (isDigit : ∀ d ∈ digits, d.isDigit) (order : ByteOrder.Suffix host suffix o) :
      Names host (c :: (digits ++ suffix)) k (Nat.ofDigitChars 10 digits 0) o

theorem NumberKind.ofCode?_eq_some_iff {c : Char} {k : NumberKind} :
    ofCode? c = some k ↔ Letter c k := by
  constructor
  · intro h
    unfold ofCode? at h
    split at h <;> cases h
    · exact .signed
    · exact .unsigned
    · exact .floating
  · intro h
    cases h <;> rfl

theorem ByteOrder.ofSuffix?_eq_some_iff {host o : ByteOrder} {suffix : String} :
    ofSuffix? host suffix = some o ↔ Suffix host suffix.toList o := by
  constructor
  · intro h
    unfold ofSuffix? at h
    split at h <;> cases h
    · exact .little
    · exact .big
    · exact .native
  · intro h
    obtain ⟨cs, rfl⟩ : ∃ cs, suffix = String.ofList cs := ⟨_, String.ofList_toList.symm⟩
    rw [String.toList_ofList] at h
    cases h <;> rfl

namespace Format
variable {host : ByteOrder} {k : NumberKind} {bits : Nat} {o : ByteOrder} {f : Format}

theorem ofBits_eq_ok_iff :
    ofBits k bits o = .ok f ↔ f.kind = k ∧ f.width.bits = bits ∧ f.order = o := by
  constructor
  · intro h
    unfold ofBits Width.ofBits at h
    split at h
    · cases h
    · rename_i w hw
      split at hw
      · rename_i w' hb
        cases hw
        obtain ⟨hk, hw, ho⟩ := parts_of_ofParts h
        exact ⟨hk, hw ▸ Width.bits_of_ofBits? hb, ho⟩
      · cases hw
  · rintro ⟨rfl, rfl, rfl⟩
    simp only [ofBits, Width.ofBits, Width.ofBits?_bits, ofParts_parts]

theorem toOption_ofBits : (ofBits k bits o).toOption = some f ↔
    f.kind = k ∧ f.width.bits = bits ∧ f.order = o := by
  rw [← ofBits_eq_ok_iff]
  cases ofBits k bits o <;> simp [Except.toOption]

theorem ofDigitChars_lt {digits : List Char} (hl : digits.length = 1 ∨ digits.length = 2)
    (hd : ∀ d ∈ digits, d.isDigit) : Nat.ofDigitChars 10 digits 0 < sizeLimit := by
  have h9 (d : Char) (h : d.isDigit) : d.toNat - 48 ≤ 9 := by
    rw [Text.isDigit_eq, Bool.and_eq_true, decide_eq_true_eq, decide_eq_true_eq] at h
    have : d.val.toNat = d.toNat := rfl
    omega
  rw [sizeLimit]
  rcases hl with h1 | h2
  · obtain ⟨d, rfl⟩ := List.length_eq_one_iff.mp h1
    have := h9 d (hd d (by simp))
    simp only [Nat.ofDigitChars, List.foldl_cons, List.foldl_nil, Char.reduceToNat]
    omega
  · obtain ⟨d, e, rfl⟩ := List.length_eq_two.mp h2
    have := h9 d (hd d (by simp))
    have := h9 e (hd e (by simp))
    simp only [Nat.ofDigitChars, List.foldl_cons, List.foldl_nil, Char.reduceToNat]
    omega

/-- The check of the digits, in characters instead of bytes. -/
theorem isShortNumber_iff (digits : List Char) :
    isShortNumber (String.ofList digits) ↔
      (digits.length = 1 ∨ digits.length = 2) ∧ ∀ d ∈ digits, d.isDigit := by
  rw [isShortNumber, Bool.and_eq_true, Bool.and_eq_true, Text.all_isDigitByte, bne_iff_ne,
    decide_eq_true_eq]
  refine and_congr_left fun hd => ?_
  rw [Text.utf8ByteSize_of_isDigit hd, ne_eq, String.ofList_eq_empty_iff,
    ← List.length_eq_zero_iff]
  omega

theorem ofNumber_eq_ok_iff {digits : List Char} {suffix : String} :
    ofNumber host k (String.ofList digits) suffix = .ok f ↔
      ((digits.length = 1 ∨ digits.length = 2) ∧ ∀ d ∈ digits, d.isDigit) ∧
        ByteOrder.Suffix host suffix.toList f.order ∧ f.kind = k ∧
        f.width.bits = Nat.ofDigitChars 10 digits 0 := by
  rw [← isShortNumber_iff, ← ByteOrder.ofSuffix?_eq_some_iff, ofNumber]
  by_cases hw : isShortNumber (String.ofList digits)
  · obtain ⟨hl, hd⟩ := (isShortNumber_iff digits).mp hw
    have hn : size? (String.ofList digits) = some (Nat.ofDigitChars 10 digits 0) := by
      rw [size?_ofList hd (by rintro rfl; simp at hl), if_pos (ofDigitChars_lt hl hd)]
    simp only [hw, not_true_eq_false, if_false, hn, true_and]
    cases ByteOrder.ofSuffix? host suffix with
    | none => simp
    | some o =>
      have hor : (f.order = o ∧ f.kind = k ∧ f.width.bits = Nat.ofDigitChars 10 digits 0) ↔
          ofBits k (Nat.ofDigitChars 10 digits 0) o = .ok f := by
        rw [ofBits_eq_ok_iff, and_rotate]
      simp only [Option.some.injEq, eq_comm (a := o), hor]
      cases h : ofBits k (Nat.ofDigitChars 10 digits 0) o <;> simp
  · simp [hw]

theorem error_of_ofNumber {digits suffix : String} {e : FormatError}
    (h : ofNumber host k digits suffix = .error e) : e = .unparsable := by
  unfold ofNumber at h
  split at h
  · cases h
    rfl
  · split at h
    · cases h
      rfl
    · split at h
      · cases h
        rfl
      · split at h <;> cases h
        rfl

theorem ofRest_append (digits suffix : String) (h : suffix.utf8ByteSize = 2) :
    ofRest host k (digits ++ suffix) = .ok (ofNumber host k digits suffix) := by
  have hb := Text.isBoundary_iff.mpr ⟨digits, suffix, rfl, rfl⟩
  rw [ofRest, String.utf8ByteSize_append, h]
  simp only [hb, not_true_eq_false, if_false, Text.splitAt_append]

theorem ofRest_cases (host : ByteOrder) (k : NumberKind) (rest : String) :
    ofRest host k rest = .ok (.error .unparsable) ∨
      ∃ digits suffix, rest = digits ++ suffix ∧ suffix.utf8ByteSize = 2 := by
  unfold ofRest
  split
  · exact .inl rfl
  · exact .inl rfl
  · rename_i split hn
    by_cases hb : Text.isBoundary rest split
    · obtain ⟨digits, suffix, rfl, rfl⟩ := Text.isBoundary_iff.mp hb
      rw [String.utf8ByteSize_append] at hn
      exact .inr ⟨digits, suffix, rfl, Nat.add_left_cancel hn⟩
    · exact .inl (if_pos hb)

theorem parse_of_names {text : String} (h : Names host text.toList k bits o) (hk : f.kind = k)
    (hb : f.width.bits = bits) (ho : f.order = o) : parse host text = .ok (.ok f) := by
  generalize ht : text.toList = cs at h
  cases h with
  | @intro c _ digits suffix _ letter length isDigit order =>
    have hs : (String.ofList suffix).utf8ByteSize = 2 := by cases order <;> rfl
    have hn : ofNumber host k (String.ofList digits) (String.ofList suffix) = .ok f :=
      ofNumber_eq_ok_iff.mpr ⟨⟨length, isDigit⟩, by rwa [String.toList_ofList, ho], hk, hb⟩
    simp only [parse, ht, NumberKind.ofCode?_eq_some_iff.mpr letter, String.ofList_append]
    rw [ofRest_append _ _ hs, hn]

theorem names_of_parse {text : String} (h : parse host text = .ok (.ok f)) :
    Names host text.toList f.kind f.width.bits f.order := by
  unfold parse at h
  split at h
  · cases h
  · rename_i c cs ht
    rw [ht]
    split at h
    · cases h
    · rename_i k hk
      rcases ofRest_cases host k (String.ofList cs) with he | ⟨digits, suffix, hr, hs⟩
      · rw [he] at h
        cases h
      · obtain ⟨ds, rfl⟩ : ∃ ds, digits = String.ofList ds := ⟨_, String.ofList_toList.symm⟩
        have hcs : cs = ds ++ suffix.toList := by
          rw [← String.toList_ofList (l := cs), hr, String.toList_append, String.toList_ofList]
        rw [hr, ofRest_append _ _ hs, Except.ok.injEq, ofNumber_eq_ok_iff] at h
        obtain ⟨⟨hl, hd⟩, ho, rfl, hb⟩ := h
        rw [hcs, hb]
        exact .intro (NumberKind.ofCode?_eq_some_iff.mp hk) hl hd ho

theorem parse_eq_ok_iff {text : String} :
    parse host text = .ok (.ok f) ↔ Names host text.toList f.kind f.width.bits f.order :=
  ⟨names_of_parse, fun h => parse_of_names h rfl rfl rfl⟩

theorem parse_text (host : ByteOrder) (f : Format) : parse host f.text = .ok (.ok f) := by
  rw [parse_eq_ok_iff, text, String.toList_ofList, chars]
  have letter : NumberKind.Letter f.kind.code f.kind := by
    cases f.kind <;> constructor
  have order : ByteOrder.Suffix host f.order.suffix f.order := by
    cases f.order <;> constructor
  have bits : Nat.ofDigitChars 10 f.width.digits 0 = f.width.bits := by
    cases f.width <;> rfl
  have length : f.width.digits.length = 1 ∨ f.width.digits.length = 2 := by
    cases f.width <;> decide
  have isDigit : ∀ d ∈ f.width.digits, d.isDigit := by
    cases f.width <;> simp [Width.digits]
  rw [← bits]
  exact .intro letter length isDigit order

/-- No text is split inside of a character, and whatever is wrong with it, it is refused for the same
reason. -/
theorem parse_cases (host : ByteOrder) (text : String) :
    (∃ f, parse host text = .ok (.ok f)) ∨ parse host text = .ok (.error .unparsable) := by
  unfold parse
  split
  · exact .inr rfl
  · split
    · exact .inr rfl
    · rename_i k hk
      rcases ofRest_cases host k (String.ofList _) with h | ⟨digits, suffix, hr, hs⟩
      · exact .inr h
      · rw [hr, ofRest_append digits suffix hs]
        cases hn : ofNumber host k digits suffix with
        | ok f => exact .inl ⟨f, rfl⟩
        | error e => exact .inr (by rw [error_of_ofNumber hn])

theorem exists_of_mem_widths (h : bits ∈ k.widths) (o : ByteOrder) :
    ∃ f : Format, f.kind = k ∧ f.width.bits = bits ∧ f.order = o := by
  have hall : ∀ n ∈ k.widths, (ofBits k n o).toOption.isSome := by
    cases k <;> cases o <;> decide
  obtain ⟨f, hf⟩ := Option.isSome_iff_exists.mp (hall bits h)
  exact ⟨f, toOption_ofBits.mp hf⟩

theorem bits_mem_widths (f : Format) : f.width.bits ∈ f.kind.widths := by
  have hall : ∀ f ∈ catalogue, f.width.bits ∈ f.kind.widths := by decide
  exact hall f f.mem_catalogue

theorem eq_of_parts {g : Format} (hk : g.kind = f.kind) (hb : g.width.bits = f.width.bits)
    (ho : g.order = f.order) : g = f := by
  have hg : ofBits f.kind f.width.bits f.order = .ok g := ofBits_eq_ok_iff.mpr ⟨hk, hb, ho⟩
  have hf : ofBits f.kind f.width.bits f.order = .ok f := ofBits_eq_ok_iff.mpr ⟨rfl, rfl, rfl⟩
  exact Except.ok.inj (hg.symm.trans hf)

theorem getElem?_catalogue_iff {i : Nat} : catalogue[i]? = some f ↔ i = f.index := by
  constructor
  · intro h
    have hn : catalogue.Nodup := by decide
    obtain ⟨hi, -⟩ := List.getElem?_eq_some_iff.mp h
    exact (List.getElem?_inj hi hn).mp (h.trans f.catalogue_index.symm)
  · rintro rfl
    exact f.catalogue_index

/-- A text of the grammar that describes a supported format is read as the one format of the catalogue
with that description. All other texts are refused, and none for any of its parts alone. -/
theorem parse_by_grammar (host : ByteOrder) (text : String) :
    (∀ k bits o, Names host text.toList k bits o → bits ∈ k.widths →
      ∃ f, parse host text = .ok (.ok f) ∧
        (∀ g, g ∈ catalogue ∧ g.kind = k ∧ g.width.bits = bits ∧ g.order = o ↔ g = f) ∧
        (∀ i, catalogue[i]? = some f ↔ i = f.index) ∧
        parse host f.text = .ok (.ok f)) ∧
    ((¬ ∃ k bits o, Names host text.toList k bits o ∧ bits ∈ k.widths) →
      parse host text = .ok (.error .unparsable)) := by
  constructor
  · intro k bits o h hb
    obtain ⟨f, rfl, rfl, rfl⟩ := exists_of_mem_widths hb o
    refine ⟨f, parse_eq_ok_iff.mpr h, fun g => ⟨?_, ?_⟩, fun i => getElem?_catalogue_iff,
      parse_text host f⟩
    · rintro ⟨-, hk, hb, ho⟩
      exact eq_of_parts hk hb ho
    · rintro rfl
      exact ⟨g.mem_catalogue, rfl, rfl, rfl⟩
  · intro h
    rcases parse_cases host text with ⟨f, hf⟩ | he
    · exact absurd ⟨f.kind, f.width.bits, f.order, parse_eq_ok_iff.mp hf, f.bits_mem_widths⟩ h
    · exact he

/-- A leading zero counts as a digit, `ne` stands for the order of the host. The last two bytes of the
second text are no letters, they end a character of three. -/
theorem parse_by_grammar_of_a_leading_zero :
    Names .big "u08ne".toList .unsignedInteger 8 .big ∧ 8 ∈ NumberKind.unsignedInteger.widths ∧
      (∃ f, parse .big "u08ne" = .ok (.ok f) ∧ f = .integer .unsigned .w8 .big ∧
        catalogue[f.index]? = some f) ∧
      (¬ ∃ k bits o, Names .big "s1€".toList k bits o ∧ bits ∈ k.widths) ∧
      parse .big "s1€" = .ok (.error .unparsable) := by
  have hn : Names .big "u08ne".toList .unsignedInteger 8 .big :=
    @Names.intro .big 'u' _ ['0', '8'] _ _ .unsigned (.inr rfl) (by simp) .native
  have hw : 8 ∈ NumberKind.unsignedInteger.widths := by decide
  obtain ⟨f, hf, hg, hi, -⟩ := (parse_by_grammar .big "u08ne").1 _ _ _ hn hw
  have hno : ¬ ∃ k bits o, Names .big "s1€".toList k bits o ∧ bits ∈ k.widths := by
    rintro ⟨k, bits, o, h, hb⟩
    obtain ⟨f, hf, -⟩ := (parse_by_grammar .big "s1€").1 _ _ _ h hb
    have : parse .big "s1€" = .ok (.error .unparsable) := rfl
    rw [this] at hf
    cases hf
  have he := (hg (.integer .unsigned .w8 .big)).mp ⟨mem_catalogue _, rfl, rfl, rfl⟩
  exact ⟨hn, hw, ⟨f, hf, he.symm, (hi _).mpr rfl⟩, hno, (parse_by_grammar .big "s1€").2 hno⟩

end Format
end RawPcm

/-
# `Proofs.JsonText` — JSON values survive being written as text

The writer appends to a text and the reader consumes characters, so both are compared on
the characters of one value, `chars`: the reader, given these and anything that may
follow a value, returns the value and what follows.  That is `Reads`.  A value is put
together from values that the reader can read, and it takes no more fuel than it has
characters.

Not every value is read back.  A double may be read as the one next to it, an integer
has to fit a word, an object has to name its members apart, and nesting has a limit:
`Regular` and `Floatless` say so, and `Plain` is both.  The reader in turn returns only
regular values, by `regular_of_parse`, so that what has once been read can be written
and read again.

The first half goes by induction on `Regular`, with a lemma for each kind of value
(`reads_str`, `reads_int`, `reads_arr`, `reads_obj`), up to `parse_render`.  The second
goes by induction on the fuel, for the three readers at once, since they call each
other: `ReturnsRegular`.

In a text the writer escapes what it must, and the reader undoes each escape by itself;
`text_writeChar` goes through the spellings of a single character, and the text follows
by induction.
-/
import BalanceLedger.Json.Printer
import BalanceLedger.Proofs.Numerals
import BalanceLedger.Proofs.Payload

namespace BalanceLedger.Json

/-- A value as texts can hold it: integers fit a word, the members of an object have distinct names,
and arrays and objects are nested no deeper than that. -/
inductive Regular : Nat → Json → Prop
  | null {depth} : Regular depth .null
  | bool {depth} (b : Bool) : Regular depth (.bool b)
  | int {depth} {n : Int} : Word.minInt64 ≤ n → n ≤ Word.maxNat64 → Regular depth (.int n)
  | double {depth} (x : Double) : Regular depth (.double x)
  | str {depth} (s : String) : Regular depth (.str s)
  | arr {depth} {xs : List Json} : (∀ v ∈ xs, Regular depth v) → Regular (depth + 1) (.arr xs)
  | obj {depth} {ms : List (String × Json)} : (ms.map Prod.fst).Nodup →
      (∀ m ∈ ms, Regular depth m.2) → Regular (depth + 1) (.obj ms)

/-- There is no double in the value. -/
inductive Floatless : Json → Prop
  | null : Floatless .null
  | bool (b : Bool) : Floatless (.bool b)
  | int (n : Int) : Floatless (.int n)
  | str (s : String) : Floatless (.str s)
  | arr {xs : List Json} : (∀ v ∈ xs, Floatless v) → Floatless (.arr xs)
  | obj {ms : List (String × Json)} : (∀ m ∈ ms, Floatless m.2) → Floatless (.obj ms)

def parts : Json → List Json
  | .arr xs => xs
  | .obj ms => ms.map Prod.snd
  | _ => []

theorem Regular.parts {depth : Nat} {v : Json} (h : v.Regular (depth + 1)) :
    ∀ w ∈ v.parts, w.Regular depth := by
  intro w hw
  cases h with
  | arr hitems => exact hitems w hw
  | obj _ hmembers =>
      obtain ⟨m, hm, rfl⟩ := List.mem_map.mp hw
      exact hmembers m hm
  | _ => exact absurd hw List.not_mem_nil

/-- A value that comes back from a text, which has room for that much nesting: it is `Regular` and
`Floatless`. -/
structure Plain (depth : Nat) (v : Json) : Prop where
  regular : v.Regular depth
  floatless : v.Floatless

namespace Plain

variable {depth : Nat}

@[simp]
theorem str (s : String) : Plain depth (.str s) :=
  ⟨.str s, .str s⟩

@[simp]
theorem text? (s : Option String) : Plain depth (.text? s) := by
  cases s with
  | none => exact ⟨.null, .null⟩
  | some s => exact .str s

@[simp]
theorem int64 (n : Int64) : Plain depth (.int64 n) := by
  have hlow : Word.minInt64 ≤ n.toInt := n.le_toInt
  have hhigh : n.toInt ≤ Word.maxInt64 := Int.le_of_lt_add_one n.toInt_lt
  have hword : Word.maxInt64 ≤ Word.maxNat64 := by decide
  exact ⟨.int hlow (by omega), .int _⟩

@[simp]
theorem int32 (n : Int32) : Plain depth (.int32 n) := by
  have hlow : Word.minInt32 ≤ n.toInt := n.le_toInt
  have hhigh : n.toInt ≤ Word.maxInt32 := Int.le_of_lt_add_one n.toInt_lt
  have hmin : Word.minInt64 ≤ Word.minInt32 := by decide
  have hmax : Word.maxInt32 ≤ Word.maxNat64 := by decide
  exact ⟨.int (by omega) (by omega), .int _⟩

theorem obj {ms : List (String × Json)} (hnames : (ms.map Prod.fst).Nodup)
    (hmembers : ∀ m ∈ ms, Plain depth m.2) : Plain (depth + 1) (.obj ms) :=
  ⟨.obj hnames fun m hm => (hmembers m hm).regular, .obj fun m hm => (hmembers m hm).floatless⟩

end Plain

/-! ## The characters of a value -/

mutual

def chars : Json → List Char
  | .null => "null".toList
  | .bool true => "true".toList
  | .bool false => "false".toList
  | .int n => (toString n).toList
  | .double x => x.render.toList
  | .str s => (writeText s).toList
  | .arr xs => '[' :: itemChars true xs
  | .obj ms => '\x7b' :: memberChars true ms

def itemChars (first : Bool) : List Json → List Char
  | [] => [']']
  | v :: rest => (if first then [] else [',']) ++ (chars v ++ itemChars false rest)

def memberChars (first : Bool) : List (String × Json) → List Char
  | [] => ['\x7d']
  | (name, v) :: rest =>
    (if first then [] else [',']) ++
      ((writeText name).toList ++ ':' :: (chars v ++ memberChars false rest))

end

theorem toList_separated (out : String) (first : Bool) :
    (if first then out else out.push ',').toList =
      out.toList ++ if first then [] else [','] := by
  cases first with
  | true => simp
  | false => simp

mutual

theorem toList_write (out : String) : ∀ v, (write out v).toList = out.toList ++ chars v
  | .null => by rw [write, chars, String.toList_append]
  | .bool true => by rw [write, chars, String.toList_append]
  | .bool false => by rw [write, chars, String.toList_append]
  | .int n => by rw [write, chars, String.toList_append]
  | .double x => by rw [write, chars, String.toList_append]
  | .str s => by rw [write, chars, String.toList_append]
  | .arr xs => by
      rw [write, chars, toList_writeItems _ true xs, String.toList_push, List.append_assoc]
      rfl
  | .obj ms => by
      rw [write, chars, toList_writeMembers _ true ms, String.toList_push, List.append_assoc]
      rfl

theorem toList_writeItems (out : String) (first : Bool) :
    ∀ xs, (writeItems out first xs).toList = out.toList ++ itemChars first xs
  | [] => by rw [writeItems, itemChars, String.toList_push]
  | v :: rest => by
      rw [writeItems, itemChars, toList_writeItems _ false rest, toList_write _ v,
        toList_separated, List.append_assoc, List.append_assoc]

theorem toList_writeMembers (out : String) (first : Bool) :
    ∀ ms, (writeMembers out first ms).toList = out.toList ++ memberChars first ms
  | [] => by rw [writeMembers, memberChars, String.toList_push]
  | (name, v) :: rest => by
      rw [writeMembers, memberChars, toList_writeMembers _ false rest, toList_write _ v,
        String.toList_append, String.toList_append, toList_separated]
      simp only [List.append_assoc]
      rfl

end

theorem toList_render (v : Json) : v.render.toList = chars v := by
  rw [render, toList_write]
  rfl

namespace Parser

variable {rest : List Char}

/-! ## Texts -/

theorem hexDigit?_digitChar {d : Nat} (h : d < 16) : hexDigit? (Nat.digitChar d) = some d :=
  Uuid.digit?_digitChar d h

theorem text_control {c : Char} (h : c.toNat < 0x20) (acc : List Char) :
    text .plain acc (['\\', 'u', '0', '0'] ++ hexPair c.toNat ++ rest) =
      text .plain (c :: acc) rest := by
  have hhigh := hexDigit?_digitChar (d := c.toNat / 16 % 16) (by omega)
  have hlow := hexDigit?_digitChar (d := c.toNat % 16) (by omega)
  have hvalue : (c.toNat / 16 % 16) * 16 + c.toNat % 16 = c.toNat := by omega
  have hunit : codeUnit c.toNat none = some (.plain, some c) := by
    have hnone : ¬ (0xD800 ≤ c.toNat ∧ c.toNat ≤ 0xDBFF) := by omega
    have hnone' : ¬ (0xDC00 ≤ c.toNat ∧ c.toNat ≤ 0xDFFF) := by omega
    simp only [codeUnit, if_neg hnone, if_neg hnone', Char.ofNat_toNat]
  have hzero : hexDigit? '0' = some 0 := by decide
  simp [text, hexPair, hzero, hhigh, hlow, hvalue, hunit]

theorem text_writeChar (c : Char) (acc : List Char) :
    text .plain acc (writeChar c ++ rest) = text .plain (c :: acc) rest := by
  unfold writeChar
  split
  · rfl
  · rfl
  · rfl
  · rfl
  · rfl
  · rfl
  · rfl
  · rename_i hquote hbackslash _ _ _ _ _
    split
    · rename_i h
      exact text_control h acc
    · rename_i h
      show text .plain acc (c :: rest) = text .plain (c :: acc) rest
      rw [text.eq_3 _ _ _ hquote hbackslash, if_neg h]

theorem text_flatMap (cs acc : List Char) :
    text .plain acc (cs.flatMap writeChar ++ '"' :: rest) =
      some (String.ofList (acc.reverse ++ cs), rest) := by
  induction cs generalizing acc with
  | nil => simp [text]
  | cons c cs ih =>
      rw [List.flatMap_cons, List.append_assoc, text_writeChar, ih, List.reverse_cons,
        List.append_assoc]
      rfl

/-- A text is read as what `writeText` has written it from. -/
theorem text_writeText (s : String) (rest : List Char) :
    ∃ cs, (writeText s).toList ++ rest = '"' :: cs ∧ text .plain [] cs = some (s, rest) := by
  refine ⟨s.toList.flatMap writeChar ++ '"' :: rest, ?_, ?_⟩
  · rw [writeText, String.toList_ofList, List.cons_append, List.append_assoc]
    rfl
  · rw [text_flatMap, List.reverse_nil, List.nil_append, String.ofList_toList]

/-! ## Numbers -/

/-- What may follow a value: the end, a comma, or a closing bracket. -/
def EndsValue (rest : List Char) : Prop :=
  ∀ c ∈ rest.head?, c = ',' ∨ c = ']' ∨ c = '\x7d'

theorem EndsValue.nil : EndsValue [] := by
  intro c hc
  simp at hc

theorem EndsValue.cons {c : Char} (hc : c = ',' ∨ c = ']' ∨ c = '\x7d') (rest : List Char) :
    EndsValue (c :: rest) := by
  intro d hd
  rw [List.head?_cons, Option.mem_some_iff] at hd
  exact hd ▸ hc

theorem EndsValue.endsNumeral (h : EndsValue rest) : EndsNumeral rest := by
  intro c hc
  rcases h c hc with rfl | rfl | rfl <;> decide

theorem length_toDigits_of_zero {n : Nat} (h : (Nat.toDigits 10 n).head? = some '0') :
    (Nat.toDigits 10 n).length ≤ 1 := by
  obtain ⟨ds, hds⟩ := List.head?_eq_some_iff.mp h
  by_contra hlong
  rw [hds, List.length_cons] at hlong
  have hvalue : digitsValue ds = n := by
    have := digitsValue_toDigits n
    rw [hds] at this
    rw [← this]
    exact (digitsValue_zeros 1 ds).symm
  have hall : AllDigits ds := fun c hc =>
    AllDigits.toDigits n c (hds ▸ List.mem_cons_of_mem _ hc)
  have hle := (Nat.length_toDigits_le_iff (by decide) (by omega)).mpr
    (hvalue ▸ digitsValue_lt hall)
  rw [hds, List.length_cons] at hle
  omega

theorem EndsValue.cases (h : EndsValue rest) : rest = [] ∨
    ∃ c cs, rest = c :: cs ∧ c ≠ '.' ∧ ¬ (c = 'e' ∨ c = 'E') := by
  cases rest with
  | nil => exact .inl rfl
  | cons c cs =>
      refine .inr ⟨c, cs, rfl, ?_, ?_⟩
      · rcases h c rfl with rfl | rfl | rfl <;> decide
      · rcases h c rfl with rfl | rfl | rfl <;> decide

theorem exponentPart_of_endsValue (h : EndsValue rest) : exponentPart rest = some (none, rest) := by
  rcases h.cases with rfl | ⟨c, cs, rfl, -, hc⟩
  · rfl
  · unfold exponentPart
    exact if_neg hc

/-- Digits that nothing else of a number follows are an integer, if they fit a word. -/
theorem number_digits (negative : Bool) {ds : List Char} {v : Json} (hds : AllDigits ds)
    (hne : ds ≠ []) (hzero : ds.head? = some '0' → ds.length ≤ 1)
    (hv : wordInteger? negative (digitsValue ds) = some v) (h : EndsValue rest) :
    number ((if negative then ['-'] else []) ++ (ds ++ rest)) = some (v, rest) := by
  have hleading : (ds.isEmpty || decide (1 < ds.length) && ds.head? == some '0') = false := by
    rw [List.isEmpty_eq_false_iff.mpr hne, Bool.false_or]
    by_contra hboth
    simp only [Bool.not_eq_false, Bool.and_eq_true, decide_eq_true_eq, beq_iff_eq] at hboth
    have := hzero hboth.2
    omega
  unfold number
  split
  rename_i sign cs hsign
  have hsplit : sign = negative ∧ cs = ds ++ rest := by
    cases negative with
    | true => exact ⟨(Prod.mk.inj hsign).1.symm, (Prod.mk.inj hsign).2.symm⟩
    | false =>
        split at hsign
        · rename_i r heq
          obtain ⟨c, es, rfl⟩ := List.exists_cons_of_ne_nil hne
          have hdigit := hds c List.mem_cons_self
          rw [(List.cons.inj heq).1] at hdigit
          exact absurd hdigit (by decide)
        · exact ⟨(Prod.mk.inj hsign).1.symm, (Prod.mk.inj hsign).2.symm⟩
  obtain ⟨rfl, rfl⟩ := hsplit
  simp only [h.endsNumeral.takeWhile_append hds, h.endsNumeral.dropWhile_append hds, hleading]
  rcases h.cases with rfl | ⟨c, cs, rfl, hpoint, -⟩
  · simp [exponentPart, hv]
  · simp [hpoint, exponentPart_of_endsValue h, hv]

/-- An integer that fits a word is read as what it was written from. -/
theorem number_int {n : Int} (hlow : Word.minInt64 ≤ n) (hhigh : n ≤ Word.maxNat64)
    (h : EndsValue rest) : number ((toString n).toList ++ rest) = some (.int n, rest) := by
  have hdigits (k : Nat) : AllDigits (Nat.toDigits 10 k) := .toDigits k
  have hzeros (k : Nat) := length_toDigits_of_zero (n := k)
  rw [Int.toString_eq_repr, Int.repr_eq_if]
  by_cases hsign : 0 ≤ n
  · rw [if_pos hsign, Nat.repr_eq_ofList_toDigits, String.toList_ofList]
    refine number_digits false (hdigits _) Nat.toDigits_ne_nil (hzeros _) ?_ h
    have hword : n.toNat ≤ Word.maxNat64 := by omega
    rw [digitsValue_toDigits]
    simp only [wordInteger?, if_pos hword, Int.toNat_of_nonneg hsign]
    rfl
  · rw [if_neg hsign, Nat.repr_eq_ofList_toDigits, String.toList_append]
    simp only [String.toList_ofList, List.append_assoc]
    refine number_digits true (hdigits _) Nat.toDigits_ne_nil (hzeros _) ?_ h
    rw [digitsValue_toDigits]
    have hword : ¬ ((-n).toNat = 0 ∨ -((-n).toNat : Int) < Word.minInt64) := by omega
    have hback : -((-n).toNat : Int) = n := by omega
    rw [wordInteger?, if_pos rfl, if_neg hword, hback]

/-! ## Values -/

theorem skip_cons {c : Char} (h : isGap c = false) (rest : List Char) :
    skip (c :: rest) = c :: rest :=
  List.dropWhile_cons_of_neg (by rw [h]; exact Bool.false_ne_true)

/-- The reader returns the value, given its characters and anything that may follow a value. -/
structure Reads (depth : Nat) (v : Json) : Prop where
  /-- The value is not taken for a blank or for the end of an array. -/
  begins : ∃ c cs, chars v = c :: cs ∧ isGap c = false ∧ c ≠ ']'
  reads : ∀ fuel rest, EndsValue rest → (chars v).length ≤ fuel →
    value fuel depth (chars v ++ rest) = some (v, rest)

variable {depth : Nat}

theorem reads_null : Reads depth .null where
  begins := ⟨'n', _, rfl, by decide, by decide⟩
  reads := by
    intro fuel rest _ hfuel
    obtain ⟨fuel, rfl⟩ := Nat.exists_eq_add_of_le' (Nat.le_trans (by decide) hfuel : 1 ≤ fuel)
    rfl

theorem reads_bool (b : Bool) : Reads depth (.bool b) where
  begins := by
    cases b with
    | true => exact ⟨'t', _, rfl, by decide, by decide⟩
    | false => exact ⟨'f', _, rfl, by decide, by decide⟩
  reads := by
    intro fuel rest _ hfuel
    have hpos : 1 ≤ fuel := by
      cases b with
      | true => exact Nat.le_trans (by decide) hfuel
      | false => exact Nat.le_trans (by decide) hfuel
    obtain ⟨fuel, rfl⟩ := Nat.exists_eq_add_of_le' hpos
    cases b with
    | true => rfl
    | false => rfl

theorem reads_str (s : String) : Reads depth (.str s) where
  begins := by
    obtain ⟨cs, hcs, -⟩ := text_writeText s []
    rw [List.append_nil] at hcs
    exact ⟨'"', cs, hcs, by decide, by decide⟩
  reads := by
    intro fuel rest _ hfuel
    obtain ⟨cs, hcs, htext⟩ := text_writeText s rest
    have hpos : 1 ≤ fuel := by
      refine Nat.le_trans ?_ hfuel
      rw [chars, writeText, String.toList_ofList, List.length_cons]
      omega
    obtain ⟨fuel, rfl⟩ := Nat.exists_eq_add_of_le' hpos
    rw [chars, hcs, value, skip_cons (by decide)]
    simp only [htext, Option.map_some]

theorem isGap_of_number {c : Char} (hc : c = '-' ∨ c.isDigit = true) :
    isGap c = false ∧ c ≠ ']' := by
  rcases hc with rfl | hc
  · decide
  · have hne (d : Char) (hd : d.isDigit = false) : c ≠ d := by
      rintro rfl
      exact absurd (hc.symm.trans hd) (by decide)
    simp only [isGap, Bool.or_eq_false_iff, decide_eq_false_iff_not]
    exact ⟨⟨⟨⟨hne ' ' rfl, hne '\t' rfl⟩, hne '\n' rfl⟩, hne '\r' rfl⟩, hne ']' rfl⟩

theorem value_number {c : Char} (hc : c = '-' ∨ c.isDigit = true) (fuel : Nat)
    (cs : List Char) : value (fuel + 1) depth (c :: cs) = number (c :: cs) := by
  rw [value, skip_cons (isGap_of_number hc).1]
  split
  case h_7 => rfl
  all_goals
    rename_i heq
    rw [(List.cons.inj heq).1] at hc
    exact absurd hc (by decide)

theorem exists_toString_cons (n : Int) :
    ∃ c cs, (toString n).toList = c :: cs ∧ (c = '-' ∨ c.isDigit = true) := by
  have hdigits (k : Nat) : ∃ c cs, Nat.toDigits 10 k = c :: cs ∧ c.isDigit = true := by
    obtain ⟨c, cs, hcs⟩ := List.exists_cons_of_ne_nil (Nat.toDigits_ne_nil (b := 10) (n := k))
    exact ⟨c, cs, hcs, AllDigits.toDigits k c (hcs ▸ List.mem_cons_self)⟩
  rw [Int.toString_eq_repr, Int.repr_eq_if]
  split
  · obtain ⟨c, cs, hcs, hc⟩ := hdigits n.toNat
    refine ⟨c, cs, ?_, .inr hc⟩
    rw [Nat.repr_eq_ofList_toDigits, String.toList_ofList, hcs]
  · refine ⟨'-', Nat.toDigits 10 (-n).toNat, ?_, .inl rfl⟩
    rw [Nat.repr_eq_ofList_toDigits, String.toList_append]
    simp only [String.toList_ofList]
    rfl

theorem reads_int {n : Int} (hlow : Word.minInt64 ≤ n) (hhigh : n ≤ Word.maxNat64) :
    Reads depth (.int n) where
  begins := by
    obtain ⟨c, cs, hcs, hc⟩ := exists_toString_cons n
    exact ⟨c, cs, hcs, isGap_of_number hc⟩
  reads := by
    intro fuel rest hrest hfuel
    obtain ⟨c, cs, hcs, hc⟩ := exists_toString_cons n
    have hnumber := number_int hlow hhigh hrest
    rw [chars] at hfuel ⊢
    rw [hcs] at hfuel hnumber ⊢
    obtain ⟨fuel, rfl⟩ := Nat.exists_eq_add_of_le' (Nat.le_trans (by simp) hfuel : 1 ≤ fuel)
    rw [List.cons_append] at hnumber ⊢
    rw [value_number hc, hnumber]

theorem items_itemChars (v : Json) (xs acc : List Json) (fuel : Nat) (rest : List Char)
    (hreads : ∀ w ∈ v :: xs, Reads depth w) (hfuel : (itemChars true (v :: xs)).length ≤ fuel) :
    items fuel depth acc (itemChars true (v :: xs) ++ rest) =
      some (.arr (acc.reverse ++ v :: xs), rest) := by
  induction xs generalizing v acc fuel with
  | nil =>
      have hv := hreads v List.mem_cons_self
      simp only [itemChars, if_true, List.nil_append, List.length_append, List.length_singleton]
        at hfuel ⊢
      obtain ⟨fuel, rfl⟩ := Nat.exists_eq_add_of_le' (by omega : 1 ≤ fuel)
      rw [List.append_assoc, List.singleton_append, items,
        hv.reads fuel _ (.cons (.inr (.inl rfl)) rest) (by omega)]
      simp only [skip_cons (c := ']') (by decide), List.reverse_cons]
  | cons w xs ih =>
      have hv := hreads v List.mem_cons_self
      have hrest := ih w (v :: acc) (fuel - 1) (fun u hu => hreads u (List.mem_cons_of_mem _ hu))
      have hcomma : itemChars false (w :: xs) = ',' :: itemChars true (w :: xs) := by
        simp only [itemChars]
        rfl
      rw [itemChars, hcomma] at hfuel ⊢
      simp only [if_true, List.nil_append, List.length_append, List.length_cons] at hfuel
      obtain ⟨fuel, rfl⟩ := Nat.exists_eq_add_of_le' (by omega : 1 ≤ fuel)
      simp only [if_true, List.nil_append, List.append_assoc, List.cons_append]
      rw [items, hv.reads fuel _ (.cons (.inl rfl) _) (by omega)]
      simp only [skip_cons (c := ',') (by decide)]
      rw [Nat.add_sub_cancel] at hrest
      rw [hrest (by omega), List.reverse_cons, List.append_assoc]
      rfl

theorem reads_arr {xs : List Json} (hreads : ∀ v ∈ xs, Reads depth v) :
    Reads (depth + 1) (.arr xs) where
  begins := ⟨'[', _, rfl, by decide, by decide⟩
  reads := by
    intro fuel rest _ hfuel
    rw [chars, List.length_cons] at hfuel
    rw [chars, List.cons_append]
    obtain ⟨fuel, rfl⟩ := Nat.exists_eq_add_of_le' (by omega : 1 ≤ fuel)
    rw [value, skip_cons (by decide)]
    cases xs with
    | nil => rfl
    | cons v xs =>
        obtain ⟨c, cs, hcs, hgap, hbracket⟩ := (hreads v List.mem_cons_self).begins
        have hitems := items_itemChars v xs [] fuel rest hreads (by omega)
        have hstart : itemChars true (v :: xs) ++ rest =
            c :: (cs ++ itemChars false xs ++ rest) := by
          rw [itemChars, hcs]
          rfl
        rw [hstart] at hitems ⊢
        simp only [if_neg (Nat.succ_ne_zero depth), skip_cons hgap, Nat.add_sub_cancel]
        split
        · rename_i heq
          exact absurd (List.cons.inj heq).1 hbracket
        · exact hitems

theorem setMember_of_notMem {name : String} (v : Json) {ms : List (String × Json)}
    (h : name ∉ ms.map Prod.fst) : setMember name v ms = ms ++ [(name, v)] := by
  induction ms with
  | nil => rfl
  | cons m ms ih =>
      rw [List.map_cons, List.mem_cons, not_or] at h
      rw [setMember, if_neg fun heq => h.1 heq.symm, ih h.2]
      rfl

theorem members_memberChars (name : String) (v : Json) (ms acc : List (String × Json)) (fuel : Nat)
    (rest : List Char) (hreads : ∀ m ∈ (name, v) :: ms, Reads depth m.2)
    (hnames : ((acc ++ (name, v) :: ms).map Prod.fst).Nodup)
    (hfuel : (memberChars true ((name, v) :: ms)).length ≤ fuel) :
    members fuel depth acc (memberChars true ((name, v) :: ms) ++ rest) =
      some (.obj (acc ++ (name, v) :: ms), rest) := by
  have hset (name : String) (v : Json) (ms acc : List (String × Json))
      (hnames : ((acc ++ (name, v) :: ms).map Prod.fst).Nodup) :
      setMember name v acc = acc ++ [(name, v)] := by
    refine setMember_of_notMem v fun hmem => ?_
    rw [List.map_append, List.nodup_append] at hnames
    exact hnames.2.2 name hmem name List.mem_cons_self rfl
  induction ms generalizing name v acc fuel with
  | nil =>
      have hv : Reads depth v := hreads (name, v) List.mem_cons_self
      obtain ⟨cs, hcs, htext⟩ := text_writeText name (':' :: (chars v ++ '\x7d' :: rest))
      have hshape : memberChars true [(name, v)] ++ rest = '"' :: cs := by
        rw [← hcs]
        simp [memberChars]
      simp only [memberChars, if_true, List.nil_append, List.length_append, List.length_cons]
        at hfuel
      obtain ⟨fuel, rfl⟩ := Nat.exists_eq_add_of_le' (by omega : 1 ≤ fuel)
      rw [hshape, members, skip_cons (by decide)]
      simp only [htext, skip_cons (c := ':') (by decide)]
      rw [hv.reads fuel _ (.cons (.inr (.inr rfl)) rest) (by omega)]
      simp only [skip_cons (c := '\x7d') (by decide), hset name v [] acc hnames]
  | cons m ms ih =>
      obtain ⟨next, w⟩ := m
      have hv : Reads depth v := hreads (name, v) List.mem_cons_self
      have hrest := ih next w (acc ++ [(name, v)]) (fuel - 1)
        (fun m hm => hreads m (List.mem_cons_of_mem _ hm)) (by rwa [List.append_assoc])
      have hcomma : memberChars false ((next, w) :: ms) =
          ',' :: memberChars true ((next, w) :: ms) := by
        simp only [memberChars]
        rfl
      obtain ⟨cs, hcs, htext⟩ := text_writeText name
        (':' :: (chars v ++ ',' :: (memberChars true ((next, w) :: ms) ++ rest)))
      have hshape : memberChars true ((name, v) :: (next, w) :: ms) ++ rest = '"' :: cs := by
        rw [← hcs, memberChars, hcomma]
        simp
      rw [memberChars, hcomma] at hfuel
      simp only [if_true, List.nil_append, List.length_append, List.length_cons] at hfuel
      obtain ⟨fuel, rfl⟩ := Nat.exists_eq_add_of_le' (by omega : 1 ≤ fuel)
      rw [hshape, members, skip_cons (by decide)]
      simp only [htext, skip_cons (c := ':') (by decide)]
      rw [hv.reads fuel _ (.cons (.inl rfl) _) (by omega)]
      simp only [skip_cons (c := ',') (by decide), hset name v ((next, w) :: ms) acc hnames]
      rw [Nat.add_sub_cancel] at hrest
      rw [hrest (by omega), List.append_assoc]
      rfl

theorem reads_obj {ms : List (String × Json)} (hnames : (ms.map Prod.fst).Nodup)
    (hreads : ∀ m ∈ ms, Reads depth m.2) : Reads (depth + 1) (.obj ms) where
  begins := ⟨'{', _, rfl, by decide, by decide⟩
  reads := by
    intro fuel rest _ hfuel
    rw [chars, List.length_cons] at hfuel
    rw [chars, List.cons_append]
    obtain ⟨fuel, rfl⟩ := Nat.exists_eq_add_of_le' (by omega : 1 ≤ fuel)
    rw [value, skip_cons (by decide)]
    cases ms with
    | nil => rfl
    | cons m ms =>
        obtain ⟨name, v⟩ := m
        have hmembers := members_memberChars name v ms [] fuel rest hreads hnames
          (by omega)
        obtain ⟨cs, hcs, -⟩ := text_writeText name
          (':' :: (chars v ++ memberChars false ms) ++ rest)
        have hstart : memberChars true ((name, v) :: ms) ++ rest = '"' :: cs := by
          rw [← hcs, memberChars]
          simp
        rw [hstart] at hmembers ⊢
        simp only [if_neg (Nat.succ_ne_zero depth), skip_cons (c := '"') (by decide),
          Nat.add_sub_cancel]
        exact hmembers

/-- A value without doubles is read, as deep as it is nested. -/
theorem reads_of_regular {v : Json} (h : Regular depth v) (hfloatless : Floatless v) :
    Reads depth v := by
  induction h with
  | null => exact reads_null
  | bool b => exact reads_bool b
  | int hlow hhigh => exact reads_int hlow hhigh
  | double x => nomatch hfloatless
  | str s => exact reads_str s
  | arr _ ih =>
      obtain _ | _ | _ | _ | hitems | _ := hfloatless
      exact reads_arr fun v hv => ih v hv (hitems v hv)
  | obj hnames _ ih =>
      obtain _ | _ | _ | _ | _ | hmembers := hfloatless
      exact reads_obj hnames fun m hm => ih m hm (hmembers m hm)

end Parser

/-- A value that a text can hold, without doubles, is read as what it was written from. -/
theorem parse_render {v : Json} (h : v.Plain maxDepth) : parse v.render = some v := by
  have hread := (Parser.reads_of_regular h.regular h.floatless).reads (2 * (chars v).length + 2) []
    .nil (by omega)
  rw [List.append_nil] at hread
  simp only [parse, toList_render, hread]
  rfl

/-! ## What the reader returns -/

namespace Parser

variable {rest : List Char} {depth : Nat}

theorem regular_of_wordInteger? {negative : Bool} {n : Nat} {v : Json}
    (h : wordInteger? negative n = some v) : Regular depth v := by
  have hmin : Word.minInt64 ≤ 0 := by decide
  unfold wordInteger? at h
  split at h
  · split at h
    · exact absurd h (by simp)
    · rename_i hword
      obtain rfl := Option.some.inj h
      exact .int (by omega) (by omega)
  · split at h
    · obtain rfl := Option.some.inj h
      exact .int (by omega) (by omega)
    · exact absurd h (by simp)

theorem regular_of_number {cs : List Char} {v : Json} (h : number cs = some (v, rest)) :
    Regular depth v := by
  unfold number at h
  split at h
  dsimp only at h
  split at h
  · exact absurd h (by simp)
  · split at h
    · exact absurd h (by simp)
    · split at h
      · exact absurd h (by simp)
      · split at h
        · rename_i hword
          obtain ⟨rfl, -⟩ := Prod.mk.inj (Option.some.inj h)
          split at hword
          · exact regular_of_wordInteger? hword
          · exact absurd hword (by simp)
        · obtain ⟨x, -, heq⟩ := Option.map_eq_some_iff.mp h
          obtain ⟨rfl, -⟩ := Prod.mk.inj heq
          exact .double _

theorem regular_of_keyword {word : String} {w v : Json} {cs : List Char} (hw : Regular depth w)
    (h : keyword word w cs = some (v, rest)) : Regular depth v := by
  obtain ⟨_, -, heq⟩ := Option.map_eq_some_iff.mp h
  obtain ⟨rfl, -⟩ := Prod.mk.inj heq
  exact hw

theorem mem_setMember {name : String} {v : Json} {ms : List (String × Json)} {m : String × Json}
    (h : m ∈ setMember name v ms) : m = (name, v) ∨ m ∈ ms := by
  induction ms with
  | nil => exact .inl (List.mem_singleton.mp h)
  | cons first ms ih =>
      obtain ⟨key, old⟩ := first
      rw [setMember] at h
      split at h
      · rcases List.mem_cons.mp h with rfl | h
        · exact .inl rfl
        · exact .inr (List.mem_cons_of_mem _ h)
      · rcases List.mem_cons.mp h with rfl | h
        · exact .inr List.mem_cons_self
        · exact (ih h).imp_right (List.mem_cons_of_mem _)

/-- Names stay distinct, because `setMember` replaces an earlier member of the name. -/
theorem nodup_setMember (name : String) (v : Json) {ms : List (String × Json)}
    (h : (ms.map Prod.fst).Nodup) : ((setMember name v ms).map Prod.fst).Nodup := by
  induction ms with
  | nil => exact List.nodup_cons.mpr ⟨List.not_mem_nil, List.nodup_nil⟩
  | cons first ms ih =>
      obtain ⟨key, old⟩ := first
      obtain ⟨hkey, htail⟩ := List.nodup_cons.mp h
      rw [setMember]
      split
      · rename_i heq
        subst heq
        exact List.nodup_cons.mpr ⟨hkey, htail⟩
      · rename_i hne
        refine List.nodup_cons.mpr ⟨?_, ih htail⟩
        intro hmem
        obtain ⟨m, hm, heq⟩ := List.mem_map.mp hmem
        rcases mem_setMember hm with rfl | hm
        · exact hne heq.symm
        · exact hkey (List.mem_map.mpr ⟨m, hm, heq⟩)

/-- What the three readers return can be held by a text. -/
structure ReturnsRegular (fuel : Nat) : Prop where
  value : ∀ depth cs v rest, Parser.value fuel depth cs = some (v, rest) → Regular depth v
  items : ∀ depth acc cs v rest, Parser.items fuel depth acc cs = some (v, rest) →
    (∀ w ∈ acc, Regular depth w) → Regular (depth + 1) v
  members : ∀ depth acc cs v rest, Parser.members fuel depth acc cs = some (v, rest) →
    (acc.map Prod.fst).Nodup → (∀ m ∈ acc, Regular depth m.2) → Regular (depth + 1) v

theorem ReturnsRegular.items_succ {fuel : Nat} (ih : ReturnsRegular fuel) (depth : Nat)
    (acc : List Json) (cs : List Char) (v : Json) (rest : List Char)
    (h : Parser.items (fuel + 1) depth acc cs = some (v, rest))
    (hacc : ∀ w ∈ acc, Regular depth w) : Regular (depth + 1) v := by
  rw [Parser.items] at h
  split at h
  · exact absurd h (by simp)
  · rename_i w tail hw
    have hall : ∀ u ∈ w :: acc, Regular depth u := by
      intro u hu
      rcases List.mem_cons.mp hu with rfl | hu
      · exact ih.value _ _ _ _ hw
      · exact hacc u hu
    split at h
    · exact ih.items _ _ _ _ _ h hall
    · obtain ⟨rfl, -⟩ := Prod.mk.inj (Option.some.inj h)
      exact .arr fun u hu => hall u (List.mem_reverse.mp hu)
    · exact absurd h (by simp)

theorem ReturnsRegular.members_succ {fuel : Nat} (ih : ReturnsRegular fuel) (depth : Nat)
    (acc : List (String × Json)) (cs : List Char) (v : Json) (rest : List Char)
    (h : Parser.members (fuel + 1) depth acc cs = some (v, rest))
    (hnames : (acc.map Prod.fst).Nodup) (hacc : ∀ m ∈ acc, Regular depth m.2) :
    Regular (depth + 1) v := by
  rw [Parser.members] at h
  split at h
  · split at h
    · exact absurd h (by simp)
    · split at h
      · split at h
        · exact absurd h (by simp)
        · rename_i w tail hw
          have hall (name : String) : ∀ m ∈ setMember name w acc, Regular depth m.2 := by
            intro m hm
            rcases mem_setMember hm with rfl | hm
            · exact ih.value _ _ _ _ hw
            · exact hacc m hm
          split at h
          · exact ih.members _ _ _ _ _ h (nodup_setMember _ w hnames) (hall _)
          · obtain ⟨rfl, -⟩ := Prod.mk.inj (Option.some.inj h)
            exact .obj (nodup_setMember _ w hnames) (hall _)
          · exact absurd h (by simp)
      · exact absurd h (by simp)
  · exact absurd h (by simp)

theorem ReturnsRegular.value_succ {fuel : Nat} (ih : ReturnsRegular fuel) (depth : Nat)
    (cs : List Char) (v : Json) (rest : List Char)
    (h : Parser.value (fuel + 1) depth cs = some (v, rest)) : Regular depth v := by
  rw [Parser.value] at h
  split at h
  · obtain ⟨_, -, heq⟩ := Option.map_eq_some_iff.mp h
    obtain ⟨rfl, -⟩ := Prod.mk.inj heq
    exact .str _
  · split at h
    · exact absurd h (by simp)
    · obtain ⟨depth, rfl⟩ := Nat.exists_eq_succ_of_ne_zero ‹depth ≠ 0›
      split at h
      · obtain ⟨rfl, -⟩ := Prod.mk.inj (Option.some.inj h)
        exact .obj List.nodup_nil fun m hm => absurd hm List.not_mem_nil
      · exact ih.members _ _ _ _ _ h List.nodup_nil fun m hm => absurd hm List.not_mem_nil
  · split at h
    · exact absurd h (by simp)
    · obtain ⟨depth, rfl⟩ := Nat.exists_eq_succ_of_ne_zero ‹depth ≠ 0›
      split at h
      · obtain ⟨rfl, -⟩ := Prod.mk.inj (Option.some.inj h)
        exact .arr fun w hw => absurd hw List.not_mem_nil
      · exact ih.items _ _ _ _ _ h fun w hw => absurd hw List.not_mem_nil
  · exact regular_of_keyword (.bool true) h
  · exact regular_of_keyword (.bool false) h
  · exact regular_of_keyword .null h
  · exact regular_of_number h

theorem returnsRegular (fuel : Nat) : ReturnsRegular fuel := by
  induction fuel with
  | zero =>
      refine ⟨?_, ?_, ?_⟩
      · intro depth cs v rest h
        exact absurd h (by simp [Parser.value])
      · intro depth acc cs v rest h
        exact absurd h (by simp [Parser.items])
      · intro depth acc cs v rest h
        exact absurd h (by simp [Parser.members])
  | succ fuel ih => exact ⟨ih.value_succ, ih.items_succ, ih.members_succ⟩

end Parser

/-- What a text is read as, a text can hold: it is `Regular`. -/
theorem regular_of_parse {s : String} {v : Json} (h : parse s = some v) :
    Regular maxDepth v := by
  simp only [parse] at h
  split at h
  · rename_i w rest hw
    split at h
    · obtain rfl := Option.some.inj h
      exact (Parser.returnsRegular _).value _ _ _ _ hw
    · exact absurd h (by simp)
  · exact absurd h (by simp)

end BalanceLedger.Json

import LuaLower.Listing
import LuaLower.Proofs.Instruction.Operands
import LuaLower.Proofs.Instruction.Packing

/-!
# Reading the lines of a listing

The line of an instruction is its mnemonic, the numbers of its operands, and a remark set off by a
tab. Words and numbers are parted by blanks, and neither holds a blank or a tab, so `read?` gets
them back from the line alone, without the constants and the position it was written with. The
mnemonic fixes the layout, and in an instruction that can be encoded a negative operand can only be
a constant; hence the words fix the instruction.

A jump is remarked with the number of a line. It is the number under which the instruction that
runs next after the jump is listed.
-/

namespace LuaLower

theorem Opcode.ofName?_name (op : Opcode) : ofName? op.name = some op := by
  cases op <;> decide +kernel

namespace Listing

variable {op : Opcode} {i : Instruction} {word : UInt32}

section Words

/-- A text that blanks and tabs set off from its neighbours. -/
structure IsWord (w : List Char) : Prop where
  ne_nil : w ≠ []
  blank : ' ' ∉ w
  tab : '\t' ∉ w

/-- The words of a text in which blanks part them. -/
def splitWords (text : List Char) : List (List Char) :=
  (text.splitOn ' ').filter (!·.isEmpty)

variable {w : List Char} {ws : List (List Char)}

theorem splitWords_word_blank (hw : IsWord w) (text : List Char) :
    splitWords (w ++ ' ' :: text) = w :: splitWords text := by
  have hsplit : (w ++ ' ' :: text).splitOn ' ' = w :: text.splitOn ' ' := by
    refine List.splitOnP_append_cons_of_forall_mem ?_ ' ' (by decide) text
    intro c hc
    simpa using ne_of_mem_of_not_mem hc hw.blank
  rw [splitWords, hsplit, List.filter_cons_of_pos (by simp [hw.ne_nil]), splitWords]

theorem splitWords_blank (text : List Char) : splitWords (' ' :: text) = splitWords text := by
  have hsplit : (' ' :: text).splitOn ' ' = [] :: text.splitOn ' ' :=
    @List.splitOnP_append_cons_of_forall_mem _ _ [] (by simp) ' ' (by decide) text
  rw [splitWords, hsplit, List.filter_cons_of_neg (by simp), splitWords]

theorem splitWords_blanks (n : Nat) (text : List Char) :
    splitWords (List.replicate n ' ' ++ text) = splitWords text := by
  induction n with
  | zero => rfl
  | succ n ih => rw [List.replicate_succ, List.cons_append, splitWords_blank, ih]

theorem splitWords_intercalate (hws : ∀ w ∈ ws, IsWord w) :
    splitWords ([' '].intercalate ws) = ws := by
  cases ws with
  | nil => rfl
  | cons w ws =>
    rw [splitWords, List.splitOn_intercalate ' ' (fun v hv ↦ (hws v hv).blank) (by simp)]
    exact List.filter_eq_self.2 fun v hv ↦ by simp [(hws v hv).ne_nil]

theorem tab_notMem_intercalate (hws : ∀ w ∈ ws, IsWord w) : '\t' ∉ [' '].intercalate ws := by
  induction ws with
  | nil => simp
  | cons w ws ih =>
    have hw := (hws w (by simp)).tab
    have hrest := ih fun v hv ↦ hws v (by simp [hv])
    cases ws with
    | nil => simpa using hw
    | cons v ws =>
      rw [List.intercalate_cons_cons]
      simp [hw, hrest]

end Words

section Numerals

/-- The number that a numeral stands for. -/
def numeral : List Char → Int
  | '-' :: digits => -(Nat.ofDigitChars 10 digits 0 : Int)
  | digits => (Nat.ofDigitChars 10 digits 0 : Int)

theorem toList_repr_of_nonneg {z : Int} (h : 0 ≤ z) :
    z.repr.toList = Nat.toDigits 10 z.toNat := by
  rw [Int.repr_eq_if, if_pos h, Nat.toList_repr]

theorem toList_repr_of_neg {z : Int} (h : z < 0) :
    z.repr.toList = '-' :: Nat.toDigits 10 (-z).toNat := by
  rw [Int.repr_eq_if, if_neg (Int.not_le.2 h), String.toList_append, Nat.toList_repr]
  rfl

theorem numeral_repr (z : Int) : numeral z.repr.toList = z := by
  by_cases h : 0 ≤ z
  · rw [toList_repr_of_nonneg h]
    have hdigits : numeral (Nat.toDigits 10 z.toNat) =
        (Nat.ofDigitChars 10 (Nat.toDigits 10 z.toNat) 0 : Int) := by
      -- the first character is a digit, so it is not taken for a sign
      rw [numeral]
      intro digits hsign
      have hdash : '-' ∈ Nat.toDigits 10 z.toNat := by simp [hsign]
      exact absurd (Nat.isDigit_of_mem_toDigits (by decide) (by decide) hdash) (by decide)
    rw [hdigits, Nat.ofDigitChars_ten_toDigits, Int.toNat_of_nonneg h]
  · have hneg : z < 0 := Int.not_le.1 h
    rw [toList_repr_of_neg hneg, numeral, Nat.ofDigitChars_ten_toDigits]
    omega

theorem isDigit_or_sign_of_mem_repr {z : Int} {c : Char} (hc : c ∈ z.repr.toList) :
    c.isDigit = true ∨ c = '-' := by
  by_cases h : 0 ≤ z
  · rw [toList_repr_of_nonneg h] at hc
    exact .inl (Nat.isDigit_of_mem_toDigits (by decide) (by decide) hc)
  · rw [toList_repr_of_neg (Int.not_le.1 h)] at hc
    rcases List.mem_cons.1 hc with rfl | hc
    · exact .inr rfl
    · exact .inl (Nat.isDigit_of_mem_toDigits (by decide) (by decide) hc)

theorem isWord_repr (z : Int) : IsWord z.repr.toList where
  ne_nil := by
    by_cases h : 0 ≤ z
    · rw [toList_repr_of_nonneg h]
      exact Nat.toDigits_ne_nil
    · rw [toList_repr_of_neg (Int.not_le.1 h)]
      exact List.cons_ne_nil _ _
  blank hmem := absurd (isDigit_or_sign_of_mem_repr hmem) (by decide)
  tab hmem := absurd (isDigit_or_sign_of_mem_repr hmem) (by decide)

end Numerals

section Text

/-- The number that shows an operand: `-k - 1` for the constant `k` of an instruction that can name
constants, and the field itself otherwise. -/
def operandNumber (op : Opcode) (x : Nat) : Int :=
  if namesConstant op x then -(RK.index x : Int) - 1 else x

/-- The numbers on the line of an instruction, in their order. -/
def numbers : Instruction → List Int
  | .abc op a b c => [a, operandNumber op b, operandNumber op c]
  | .abx _ a bx => [a, bx]
  | .asbx _ a sbx => [a, sbx]
  | .ax _ operand => [operand]

/-- What may stand behind the numbers: nothing, or a text that a tab sets off. -/
def IsRemark (text : String) : Prop := text = "" ∨ ∃ rest, text = "\t" ++ rest

theorem isRemark_constantRemark (pool : Pool) (op : Opcode) (operands : List Nat) :
    IsRemark (constantRemark pool op operands) := by
  rw [constantRemark]
  split
  · exact .inl rfl
  · exact .inr ⟨_, @String.append_assoc "\t" ";" _⟩

theorem isRemark_fieldRemark (pool : Pool) (op : Opcode) (bx : Nat) :
    IsRemark (fieldRemark pool op bx) := by
  unfold fieldRemark
  split
  · split
    · exact .inr ⟨_, @String.append_assoc "\t" "; " _⟩
    · exact .inl rfl
  · exact .inr ⟨"; function [" ++ (toString bx ++ "]"), String.append_assoc⟩
  · exact .inl rfl

/-- The line of an instruction is its mnemonic, its numbers with blanks between them, and a
remark. -/
theorem instruction_eq (pool : Pool) (pc : Nat) (i : Instruction) :
    ∃ remark, IsRemark remark ∧ instruction pool pc i =
      mnemonic i.opcode ++ " ".intercalate ((numbers i).map toString) ++ remark := by
  cases i with
  | abc op a b c =>
    refine ⟨_, isRemark_constantRemark pool op [b, c], ?_⟩
    simp only [instruction, numbers, List.map, String.intercalate_cons_cons,
      String.intercalate_singleton, String.append_assoc]
    rfl
  | abx op a bx =>
    refine ⟨_, isRemark_fieldRemark pool op bx, ?_⟩
    simp only [instruction, numbers, List.map, String.intercalate_cons_cons,
      String.intercalate_singleton, String.append_assoc]
    rfl
  | asbx op a sbx =>
    refine ⟨"\t; to " ++ toString (pc + 2 + sbx), .inr ⟨_, @String.append_assoc "\t" "; to " _⟩, ?_⟩
    simp only [instruction, numbers, List.map, String.intercalate_cons_cons,
      String.intercalate_singleton, String.append_assoc]
    rfl
  | ax op operand =>
    refine ⟨"", .inl rfl, ?_⟩
    simp only [numbers, List.map, String.intercalate_singleton, String.append_empty]
    rfl

theorem toList_pushn (c : Char) (n : Nat) : ("".pushn c n).toList = List.replicate n c := by
  induction n with
  | zero => rfl
  | succ n ih =>
    have hpush : "".pushn c (n + 1) = ("".pushn c n).push c := rfl
    rw [hpush, String.toList_push, ih, List.replicate_succ']

/-- Every mnemonic is a word, and is followed by at least one blank. -/
theorem toList_mnemonic (op : Opcode) :
    IsWord op.name.toList ∧
      ∃ n, (mnemonic op).toList = op.name.toList ++ ' ' :: List.replicate n ' ' := by
  have hname : op.name.toList ≠ [] ∧ ' ' ∉ op.name.toList ∧ '\t' ∉ op.name.toList ∧
      op.name.length < 12 := by
    cases op <;> decide
  obtain ⟨hne, hblank, htab, hlength⟩ := hname
  refine ⟨⟨hne, hblank, htab⟩, 11 - op.name.length, ?_⟩
  have hwidth : 12 - op.name.length = 11 - op.name.length + 1 := by omega
  rw [mnemonic, String.toList_append, toList_pushn, hwidth, List.replicate_succ]

end Text

section Reading

/-- The words of a line before its remark. -/
def words (line : String) : List (List Char) :=
  splitWords (line.toList.takeWhile (· != '\t'))

/-- The operand that a number shows. -/
def operandOf (z : Int) : Nat :=
  if z < 0 then RK.constant (-z - 1).toNat else z.toNat

/-- The instruction of an opcode with the given numbers on its line. -/
def ofNumbers? (op : Opcode) (numbers : List Int) : Option Instruction :=
  match op.family, numbers with
  | .abc, [a, b, c] => some (.abc op a.toNat (operandOf b) (operandOf c))
  | .abx, [a, bx] => some (.abx op a.toNat bx.toNat)
  | .asbx, [a, sbx] => some (.asbx op a.toNat sbx)
  | .ax, [operand] => some (.ax op operand.toNat)
  | _, _ => none

/-- The instruction that a line shows. -/
def read? (line : String) : Option Instruction :=
  match words line with
  | [] => none
  | name :: numerals =>
    (Opcode.ofName? (String.ofList name)).bind fun op ↦ ofNumbers? op (numerals.map numeral)

theorem takeWhile_remark {remark : String} (h : IsRemark remark) :
    remark.toList.takeWhile (· != '\t') = [] := by
  rcases h with rfl | ⟨rest, rfl⟩
  · rfl
  · rw [String.toList_append]
    rfl

/-- A line in which a word is filled up with blanks, and further words with one blank between them
and a remark follow it. -/
theorem words_of_toList_eq {name : List Char} {numerals : List (List Char)} {line remark : String}
    {n : Nat} (hname : IsWord name) (hnumerals : ∀ w ∈ numerals, IsWord w)
    (hremark : IsRemark remark)
    (hline : line.toList =
      name ++ ' ' :: (List.replicate n ' ' ++ [' '].intercalate numerals) ++ remark.toList) :
    words line = name :: numerals := by
  have hbefore : ∀ c ∈ name ++ ' ' :: (List.replicate n ' ' ++ [' '].intercalate numerals),
      (c != '\t') = true := by
    intro c hc
    rw [bne_iff_ne]
    rintro rfl
    simp only [List.mem_append, List.mem_cons, List.mem_replicate] at hc
    rcases hc with hc | hc | hc | hc
    · exact hname.tab hc
    · exact absurd hc (by decide)
    · exact absurd hc.2 (by decide)
    · exact tab_notMem_intercalate hnumerals hc
  rw [words, hline, List.takeWhile_append_of_pos hbefore, takeWhile_remark hremark,
    List.append_nil, splitWords_word_blank hname, splitWords_blanks,
    splitWords_intercalate hnumerals]

/-- The words of an instruction's line are its name and its numbers. -/
theorem words_instruction (pool : Pool) (pc : Nat) (i : Instruction) :
    words (instruction pool pc i) =
      i.opcode.name.toList :: (numbers i).map (·.repr.toList) := by
  obtain ⟨remark, hremark, hline⟩ := instruction_eq pool pc i
  obtain ⟨hname, n, hmnemonic⟩ := toList_mnemonic i.opcode
  have hnumerals : ∀ w ∈ (numbers i).map (·.repr.toList), IsWord w := by
    intro w hw
    obtain ⟨z, -, rfl⟩ := List.mem_map.1 hw
    exact isWord_repr z
  refine words_of_toList_eq (n := n) hname hnumerals hremark ?_
  rw [hline, String.toList_append, String.toList_append, hmnemonic, String.toList_intercalate,
    List.map_map, List.append_assoc i.opcode.name.toList, List.cons_append]
  rfl

theorem operandOf_operandNumber {x : Nat} (hx : x < 2 ^ 9) :
    operandOf (operandNumber op x) = x := by
  rw [operandNumber]
  split
  case isTrue h =>
    have hconstant : RK.isConstant x = true := (Bool.and_eq_true_iff.1 h).2
    have hindex : (-(-(RK.index x : Int) - 1) - 1).toNat = RK.index x := by omega
    rw [operandOf, if_pos (by omega), hindex, RK.constant_index hx hconstant]
  case isFalse =>
    rw [operandOf, if_neg (by omega), Int.toNat_natCast]

example : operandNumber .lt (RK.constant 7) = -8 ∧ operandNumber .call 263 = 263 := by decide

theorem ofNumbers?_numbers (hfamily : i.family = i.opcode.family) (hfits : i.FieldsFit) :
    ofNumbers? i.opcode (numbers i) = some i := by
  unfold ofNumbers?
  rw [← hfamily]
  cases i with
  | abc op a b c =>
    obtain ⟨-, hb, hc⟩ := hfits
    simp only [numbers, Instruction.family, Instruction.opcode, operandOf_operandNumber hb,
      operandOf_operandNumber hc, Int.toNat_natCast]
  | abx op a bx => rfl
  | asbx op a sbx => rfl
  | ax op operand => rfl

/-- The line of an instruction that can be encoded is read back to the instruction. -/
theorem read?_instruction (pool : Pool) (pc : Nat) (h : i.encode = .ok word) :
    read? (instruction pool pc i) = some i := by
  obtain ⟨hfamily, hfits, -⟩ := Instruction.encode_eq_ok h
  have hnumbers : ((numbers i).map (·.repr.toList)).map numeral = numbers i := by
    rw [List.map_map]
    exact List.map_id'' numeral_repr _
  rw [read?, words_instruction]
  simp only [String.ofList_toList, Opcode.ofName?_name, Option.bind_some, hnumbers]
  exact ofNumbers?_numbers hfamily hfits

end Reading

section Numbering

/-- The number under which a position is listed. Positions count from zero, lines from one. -/
def lineNumber (pc : Nat) : String := toString (pc + 1)

/-- The line of an instruction in the listing of a prototype. -/
def codeLine (indent : String) (p : Prototype) (pc : Nat) (i : Instruction) : String :=
  indent ++ "\t" ++ lineNumber pc ++ "\t" ++ instruction p.constants pc i ++ "\n"

theorem codeLines_eq_join (indent : String) (p : Prototype) :
    codeLines indent p = String.join (p.code.toList.mapIdx (codeLine indent p)) := by
  rw [codeLines, numbered]
  congr 1
  refine List.ext_getElem? fun j ↦ ?_
  simp only [List.getElem?_map, List.getElem?_zipIdx, List.getElem?_mapIdx, Option.map_map]
  refine congrArg (Option.map · _) (funext fun i ↦ ?_)
  simp only [Function.comp, codeLine, lineNumber, Nat.zero_add, Nat.add_comm 1 j,
    String.append_assoc]
  rfl

theorem lineNumber_eq_iff (pc : Nat) (z : Int) :
    lineNumber pc = toString z ↔ (pc : Int) + 1 = z := by
  have hnumber : lineNumber pc = toString ((pc : Int) + 1) := rfl
  rw [hnumber, Int.toString_eq_repr, Int.toString_eq_repr]
  refine ⟨fun h ↦ ?_, fun h ↦ by rw [h]⟩
  rw [← numeral_repr (pc + 1), h, numeral_repr]

end Numbering

/-- A line is a mnemonic, numbers and a remark, and the first two determine an encodable
instruction. Lines are numbered in the order of the code, and jumps are remarked to lead to their
targets. -/
theorem lines_faithful (p : Prototype) (pc : Nat) :
    (∀ i, ∃ remark, IsRemark remark ∧ instruction p.constants pc i =
      mnemonic i.opcode ++ " ".intercalate ((numbers i).map toString) ++ remark) ∧
    (∀ i word, i.encode = .ok word → read? (instruction p.constants pc i) = some i) ∧
    (∀ i j word word', i.encode = .ok word → j.encode = .ok word' →
      instruction p.constants pc i = instruction p.constants pc j → i = j) ∧
    (∀ indent, codeLines indent p = String.join (p.code.toList.mapIdx (codeLine indent p))) ∧
    ∀ op a sbx, ∃ target,
      instruction p.constants pc (.asbx op a sbx) =
        mnemonic op ++ s!"{a} {sbx}\t; to " ++ target ∧
      ∀ j, lineNumber j = target ↔ (j : Int) = pc + 1 + sbx := by
  refine ⟨instruction_eq p.constants pc, fun i word h ↦ read?_instruction p.constants pc h, ?_,
    fun indent ↦ codeLines_eq_join indent p, ?_⟩
  · intro i j word word' hi hj htext
    have hread : some i = some j := by
      rw [← read?_instruction p.constants pc hi, htext, read?_instruction p.constants pc hj]
    exact Option.some.inj hread
  · intro op a sbx
    refine ⟨toString (pc + 2 + sbx), String.append_assoc.symm, fun j ↦ ?_⟩
    rw [lineNumber_eq_iff]
    omega

/-- A loop that tests a constant, calls a function with 255 arguments and jumps back. The test shows
its constant by a negative number, the call its field as it is. -/
theorem lines_faithful_loop :
    let test : Instruction := .abc .lt 1 0 (RK.constant 0)
    let call : Instruction := .abc .call 0 256 1
    let p : Prototype :=
      { code := #[test, call, .asbx .jmp 0 (-3)], constants := .ofList [.integer 7] }
    read? (instruction p.constants 0 test) = some test ∧
      read? (instruction p.constants 0 call) = some call ∧
      instruction p.constants 0 test ≠ instruction p.constants 0 (.abc .lt 1 0 0) ∧
      ∃ target, instruction p.constants 2 (.asbx .jmp 0 (-3)) =
          mnemonic .jmp ++ "0 -3\t; to " ++ target ∧
        lineNumber 0 = target := by
  intro test call p
  obtain ⟨-, hread, hinjective, -⟩ := lines_faithful p 0
  refine ⟨hread test _ rfl, hread call _ rfl, fun htext ↦ ?_, ?_⟩
  · exact absurd (hinjective test (.abc .lt 1 0 0) _ _ rfl rfl htext) (by decide)
  · obtain ⟨target, hline, hnumber⟩ := (lines_faithful p 2).2.2.2.2 .jmp 0 (-3)
    exact ⟨target, hline, (hnumber 0).2 (by decide)⟩

end Listing

end LuaLower

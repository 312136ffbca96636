import Mathlib.Data.Nat.Digits.Defs
import Mathlib.Data.Nat.Digits.Lemmas
import Mathlib.Tactic.Common

/-!
# Text — hexadecimal numbers and lines

What `sprintf`, `sscanf` and `fgets` do with hexadecimal numbers and lines, on
lists of characters, and what reading makes of what was printed.
-/

namespace Text

/-! ## Digits -/

/-- The digit `%X` prints. -/
def hexDigit (d : Nat) : Char := if d < 10 then Char.ofNat (48 + d) else Char.ofNat (55 + d)

/-- The value `%x` reads a character as. -/
def hexValue? (c : Char) : Option Nat :=
  if 48 ≤ c.toNat ∧ c.toNat ≤ 57 then some (c.toNat - 48)
  else if 65 ≤ c.toNat ∧ c.toNat ≤ 70 then some (c.toNat - 55)
  else if 97 ≤ c.toNat ∧ c.toNat ≤ 102 then some (c.toNat - 87)
  else none

theorem hexValue?_hexDigit {d : Nat} (hd : d < 16) : hexValue? (hexDigit d) = some d := by
  have hall : ∀ d < 16, hexValue? (hexDigit d) = some d := by decide
  exact hall d hd

/-- The number a row of digits stands for, after `acc`. -/
def value (acc : Nat) (ds : List Nat) : Nat := ds.foldl (fun a d => a * 16 + d) acc

@[simp] theorem value_nil (acc : Nat) : value acc [] = acc := rfl

@[simp] theorem value_cons (acc d : Nat) (ds : List Nat) :
    value acc (d :: ds) = value (acc * 16 + d) ds := rfl

@[simp] theorem value_append (acc : Nat) (ds es : List Nat) :
    value acc (ds ++ es) = value (value acc ds) es := List.foldl_append

theorem value_replicate_zero (n : Nat) : value 0 (List.replicate n 0) = 0 := by
  induction n with
  | zero => rfl
  | succ n ih => rw [List.replicate_succ, value_cons]; exact ih

theorem value_reverse (acc : Nat) (ds : List Nat) :
    value acc ds.reverse = acc * 16 ^ ds.length + Nat.ofDigits 16 ds := by
  rw [value, List.foldl_reverse]
  induction ds with
  | nil => simp
  | cons d ds ih =>
      rw [List.foldr_cons, ih, Nat.ofDigits_cons, List.length_cons, pow_succ]
      ring

/-! ## Printing -/

/-- The digits of `%0*X`: at least `width` of them. -/
def hexDigits (width n : Nat) : List Nat :=
  let digits := if n = 0 then [0] else (Nat.digits 16 n).reverse
  List.replicate (width - digits.length) 0 ++ digits

/-- `sprintf("%0*X", width, n)`. -/
def printHex (width n : Nat) : List Char := (hexDigits width n).map hexDigit

theorem hexDigits_lt (width n : Nat) : ∀ d ∈ hexDigits width n, d < 16 := by
  intro d hd
  rcases List.mem_append.mp hd with hd | hd
  · rw [List.eq_of_mem_replicate hd]
    decide
  · split at hd
    · rw [List.mem_singleton.mp hd]
      decide
    · exact Nat.digits_lt_base (by decide) (List.mem_reverse.mp hd)

theorem hexDigits_ne_nil (width n : Nat) : hexDigits width n ≠ [] := by
  have hne : (if n = 0 then [0] else (Nat.digits 16 n).reverse) ≠ [] := by
    split
    · exact List.cons_ne_nil _ _
    · rename_i hn
      simpa [Nat.digits_eq_nil_iff_eq_zero] using hn
  exact List.append_ne_nil_of_right_ne_nil _ hne

theorem length_hexDigits {width n : Nat} (hw : 0 < width) (hn : n < 16 ^ width) :
    (hexDigits width n).length = width := by
  have hle : (if n = 0 then [0] else (Nat.digits 16 n).reverse).length ≤ width := by
    split
    · exact hw
    · rw [List.length_reverse]
      exact (Nat.digits_length_le_iff (by decide) n).mpr hn
  rw [hexDigits, List.length_append, List.length_replicate]
  omega

/-- A narrower field does not need more digits. -/
theorem length_hexDigits_mono {width width' : Nat} (h : width ≤ width') (n : Nat) :
    (hexDigits width n).length ≤ (hexDigits width' n).length := by
  simp only [hexDigits, List.length_append, List.length_replicate]
  omega

theorem value_hexDigits (width n : Nat) : value 0 (hexDigits width n) = n := by
  rw [hexDigits, value_append, value_replicate_zero]
  split
  · rename_i hn
    rw [hn]
    rfl
  · rw [value_reverse, Nat.ofDigits_digits]
    omega

/-- Digits printed behind other digits. -/
theorem value_hexDigits_of_lt (acc : Nat) {width n : Nat} (hw : 0 < width) (hn : n < 16 ^ width) :
    value acc (hexDigits width n) = acc * 16 ^ width + n := by
  have hlen := length_hexDigits hw hn
  have h := value_reverse acc (hexDigits width n).reverse
  have h0 := value_reverse 0 (hexDigits width n).reverse
  rw [List.reverse_reverse, List.length_reverse, hlen] at h h0
  rw [value_hexDigits] at h0
  omega

/-! ## Scanning -/

/-- `isspace`. -/
def isSpace (c : Char) : Bool := c.toNat = 32 ∨ (9 ≤ c.toNat ∧ c.toNat ≤ 13)

/-- The longest run of digits, as a number behind `acc`. -/
def scanDigits (acc : Nat) : List Char → Nat
  | [] => acc
  | c :: cs =>
      match hexValue? c with
      | some d => scanDigits (acc * 16 + d) cs
      | none => acc

/-- A leading sign. -/
def scanSign : List Char → Bool × List Char
  | '-' :: cs => (true, cs)
  | '+' :: cs => (false, cs)
  | cs => (false, cs)

/-- A leading `0x`. -/
def dropHexPrefix : List Char → List Char
  | '0' :: 'x' :: cs => cs
  | '0' :: 'X' :: cs => cs
  | cs => cs

/-- `sscanf(text, "%x", ..)`: white space, a sign, a prefix, and at least one
digit; `none` when the conversion fails. A bare `0x` is a matching failure, as
ISO C has it; glibc reads it as 0. -/
def scanHex (text : List Char) : Option Int :=
  let signed := scanSign (text.dropWhile isSpace)
  let digits := dropHexPrefix signed.2
  if digits.head?.any fun c => (hexValue? c).isSome then
    some (if signed.1 then -(scanDigits 0 digits : Int) else scanDigits 0 digits)
  else none

theorem scanDigits_append {ds : List Nat} (hds : ∀ d ∈ ds, d < 16) {rest : List Char}
    (hrest : ∀ c ∈ rest.head?, hexValue? c = none) (acc : Nat) :
    scanDigits acc (ds.map hexDigit ++ rest) = value acc ds := by
  induction ds generalizing acc with
  | nil =>
      cases rest with
      | nil => rfl
      | cons c cs => simp [scanDigits, hrest c (by simp)]
  | cons d ds ih =>
      have hd := hexValue?_hexDigit (hds d (by simp))
      simp only [List.map_cons, List.cons_append, scanDigits, hd, value_cons]
      exact ih (fun e he => hds e (List.mem_cons_of_mem d he)) _

/-- What the first characters of a printed number are not. -/
theorem hexDigit_plain {d : Nat} (hd : d < 16) : isSpace (hexDigit d) = false ∧
    hexDigit d ≠ '-' ∧ hexDigit d ≠ '+' ∧ hexDigit d ≠ 'x' ∧ hexDigit d ≠ 'X' ∧
    hexDigit d ≠ '\n' ∧ hexDigit d ≠ '.' := by
  have hall : ∀ d < 16, isSpace (hexDigit d) = false ∧
      hexDigit d ≠ '-' ∧ hexDigit d ≠ '+' ∧ hexDigit d ≠ 'x' ∧ hexDigit d ≠ 'X' ∧
      hexDigit d ≠ '\n' ∧ hexDigit d ≠ '.' := by decide
  exact hall d hd

theorem scanSign_of_ne {c : Char} {cs : List Char} (h1 : c ≠ '-') (h2 : c ≠ '+') :
    scanSign (c :: cs) = (false, c :: cs) := by
  unfold scanSign
  split <;> simp_all

theorem dropHexPrefix_of_ne {cs : List Char}
    (h : ∀ c ∈ cs.tail.head?, c ≠ 'x' ∧ c ≠ 'X') : dropHexPrefix cs = cs := by
  unfold dropHexPrefix
  split
  · exact absurd rfl (h 'x' (by simp)).1
  · exact absurd rfl (h 'X' (by simp)).2
  · rfl

/-- Scanning digits, white space before and a line break behind them. -/
theorem scanHex_digits {ds : List Nat} (hne : ds ≠ []) (hds : ∀ d ∈ ds, d < 16)
    (blank : List Char) (hblank : ∀ c ∈ blank, isSpace c = true) (rest : List Char) :
    scanHex (blank ++ (ds.map hexDigit ++ '\n' :: rest)) = some (value 0 ds : Int) := by
  obtain ⟨d, es, rfl⟩ := List.exists_cons_of_ne_nil hne
  obtain ⟨hspace, hminus, hplus, -⟩ := hexDigit_plain (hds d (by simp))
  have hdrop : (blank ++ ((d :: es).map hexDigit ++ '\n' :: rest)).dropWhile isSpace =
      (d :: es).map hexDigit ++ '\n' :: rest := by
    rw [List.dropWhile_append_of_pos hblank]
    simp [hspace]
  have hprefix : dropHexPrefix ((d :: es).map hexDigit ++ '\n' :: rest) =
      (d :: es).map hexDigit ++ '\n' :: rest := by
    refine dropHexPrefix_of_ne fun c hc => ?_
    cases es with
    | nil =>
        obtain rfl : '\n' = c := by simpa using hc
        decide
    | cons e es =>
        obtain rfl : hexDigit e = c := by simpa using hc
        obtain ⟨-, -, -, hx, hX, -⟩ := hexDigit_plain (hds e (by simp))
        exact ⟨hx, hX⟩
  have hbreak : ∀ c ∈ ('\n' :: rest).head?, hexValue? c = none := by
    intro c hc
    obtain rfl : '\n' = c := by simpa using hc
    decide
  have hdigits := scanDigits_append hds hbreak 0
  have hsign : scanSign ((d :: es).map hexDigit ++ '\n' :: rest) =
      (false, (d :: es).map hexDigit ++ '\n' :: rest) := scanSign_of_ne hminus hplus
  have hhead : (((d :: es).map hexDigit ++ '\n' :: rest).head?.any
      fun c => (hexValue? c).isSome) = true := by
    simp [hexValue?_hexDigit (hds d (by simp))]
  simp only [scanHex, hdrop, hsign, hprefix, hhead, hdigits, if_true]
  rfl

/-! ## Lines -/

/-- `fgets` into a buffer for `size` characters and the final zero: the line
read, its line break included, and what is left. -/
def fgets : Nat → List Char → List Char × List Char
  | 0, cs => ([], cs)
  | _ + 1, [] => ([], [])
  | size + 1, c :: cs =>
      if c = '\n' then ([c], cs) else (c :: (fgets size cs).1, (fgets size cs).2)

/-- `fgets` until the end of the file; each call takes a character at least,
so the first argument is no bound when it is the length of the file. -/
def readLines (size : Nat) : Nat → List Char → List (List Char)
  | 0, _ => []
  | fuel + 1, cs =>
      if cs = [] then [] else (fgets size cs).1 :: readLines size fuel (fgets size cs).2

/-- The lines a file is read in. -/
def lines (size : Nat) (file : List Char) : List (List Char) := readLines size file.length file

/-- A file made of lines. -/
def unlines (ls : List (List Char)) : List Char := ls.flatMap (· ++ ['\n'])

theorem fgets_line {size : Nat} {l : List Char} (hsize : l.length < size) (hl : '\n' ∉ l)
    (rest : List Char) : fgets size (l ++ '\n' :: rest) = (l ++ ['\n'], rest) := by
  induction l generalizing size with
  | nil =>
      obtain ⟨size, rfl⟩ := Nat.exists_eq_succ_of_ne_zero (Nat.ne_of_gt hsize)
      simp [fgets]
  | cons c l ih =>
      obtain ⟨size, rfl⟩ := Nat.exists_eq_succ_of_ne_zero (Nat.ne_of_gt (Nat.zero_lt_of_lt hsize))
      have hc : c ≠ '\n' := fun h => hl (h ▸ List.mem_cons_self ..)
      have ih := @ih size (Nat.lt_of_succ_lt_succ hsize)
        (fun h => hl (List.mem_cons_of_mem c h))
      simp only [List.cons_append, fgets, if_neg hc, ih]

theorem unlines_cons (l : List Char) (ls : List (List Char)) :
    unlines (l :: ls) = l ++ '\n' :: unlines ls := by
  simp [unlines]

theorem unlines_append (ls ls' : List (List Char)) :
    unlines (ls ++ ls') = unlines ls ++ unlines ls' := List.flatMap_append

theorem length_le_unlines (ls : List (List Char)) : ls.length ≤ (unlines ls).length := by
  induction ls with
  | nil => exact Nat.le_refl 0
  | cons l ls ih =>
      rw [unlines_cons, List.length_append, List.length_cons, List.length_cons]
      omega

/-- Lines that fit the buffer are read as they were written, whatever follows. -/
theorem readLines_unlines {size : Nat} {ls : List (List Char)} (hsize : ∀ l ∈ ls, l.length < size)
    (hls : ∀ l ∈ ls, '\n' ∉ l) (fuel : Nat) (rest : List Char) :
    readLines size (fuel + ls.length) (unlines ls ++ rest) =
      ls.map (· ++ ['\n']) ++ readLines size fuel rest := by
  induction ls with
  | nil => rfl
  | cons l ls ih =>
      have hline := fgets_line (hsize l (by simp)) (hls l (by simp)) (unlines ls ++ rest)
      rw [unlines_cons, List.length_cons, ← Nat.add_assoc, List.append_assoc, List.cons_append,
        readLines, if_neg (by simp), hline, List.map_cons, List.cons_append,
        ih (fun l hl => hsize l (List.mem_cons_of_mem _ hl))
          fun l hl => hls l (List.mem_cons_of_mem _ hl)]

theorem lines_unlines {size : Nat} {ls : List (List Char)} (hsize : ∀ l ∈ ls, l.length < size)
    (hls : ∀ l ∈ ls, '\n' ∉ l) : lines size (unlines ls) = ls.map (· ++ ['\n']) := by
  obtain ⟨fuel, hfuel⟩ := Nat.exists_eq_add_of_le' (length_le_unlines ls)
  have hread := readLines_unlines hsize hls fuel []
  have hend : readLines size fuel [] = [] := by
    cases fuel <;> rfl
  rw [List.append_nil, hend, List.append_nil] at hread
  rw [lines, hfuel, hread]

end Text

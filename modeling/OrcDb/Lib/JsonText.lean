import OrcDb.Lib.Json

/-!
# The compact text of a document

A `Codec` that exists: the printer writes the compact form — no blanks, integers in decimal,
in strings a backslash in front of the quote and the backslash, the short escapes for the
usual control characters and `\u00xx` for the others, everything else as it is — and the
parser reads that form. An object's fields go into an ordered map as they are read, so on
reading a later field replaces an earlier one of the same name.

`parse_print` is the round trip. The parser runs on fuel, one unit per level and per element;
the length of the text is always enough.
-/

set_option autoImplicit false

namespace OrcDb
namespace Lib
namespace Json

/-! ## Printing -/

def hexDigit (n : Nat) : Char := if n < 10 then Char.ofNat (48 + n) else Char.ofNat (87 + n)

/-- A character inside a string literal. -/
def escape (c : Char) : List Char :=
  if c = '"' then ['\\', '"']
  else if c = '\\' then ['\\', '\\']
  else if c = '\x08' then ['\\', 'b']
  else if c = '\x0c' then ['\\', 'f']
  else if c = '\n' then ['\\', 'n']
  else if c = '\r' then ['\\', 'r']
  else if c = '\t' then ['\\', 't']
  else if c.toNat < 32 then
    ['\\', 'u', '0', '0', hexDigit (c.toNat / 16), hexDigit (c.toNat % 16)]
  else [c]

def printString (s : String) : List Char := '"' :: s.toList.flatMap escape ++ ['"']

def printInt : Int → List Char
  | .ofNat n => Nat.toDigits 10 n
  | .negSucc n => '-' :: Nat.toDigits 10 (n + 1)

mutual

def print : Json → List Char
  | .null => ['n', 'u', 'l', 'l']
  | .bool true => ['t', 'r', 'u', 'e']
  | .bool false => ['f', 'a', 'l', 's', 'e']
  | .num n => printInt n
  | .str s => printString s
  | .arr xs => '[' :: printElems xs ++ [']']
  | .obj fields => '\x7b' :: printFields fields ++ ['\x7d']

def printElems : List Json → List Char
  | [] => []
  | [x] => print x
  | x :: y :: xs => print x ++ ',' :: printElems (y :: xs)

def printFields : List (String × Json) → List Char
  | [] => []
  | [(k, x)] => printString k ++ ':' :: print x
  | (k, x) :: f :: fs => printString k ++ ':' :: print x ++ ',' :: printFields (f :: fs)

end

/-! ## Parsing -/

def hexValue (c : Char) : Option Nat :=
  if '0' ≤ c ∧ c ≤ '9' then some (c.toNat - 48)
  else if 'a' ≤ c ∧ c ≤ 'f' then some (c.toNat - 87)
  else none

/-- The character of a short escape. -/
def unescape : Char → Option Char
  | '"' => some '"'
  | '\\' => some '\\'
  | '/' => some '/'
  | 'b' => some '\x08'
  | 'f' => some '\x0c'
  | 'n' => some '\n'
  | 'r' => some '\r'
  | 't' => some '\t'
  | _ => none

/-- The rest of a string literal, after its opening quote. -/
def readString : List Char → Option (List Char × List Char)
  | [] => none
  | '"' :: rest => some ([], rest)
  | '\\' :: 'u' :: w :: x :: y :: z :: rest => do
      let n := (← hexValue w) * 4096 + (← hexValue x) * 256 + (← hexValue y) * 16 +
        (← hexValue z)
      let (cs, rest) ← readString rest
      return (Char.ofNat n :: cs, rest)
  | '\\' :: c :: rest => do
      let c ← unescape c
      let (cs, rest) ← readString rest
      return (c :: cs, rest)
  | c :: rest => do
      if c.toNat < 32 then none
      else
        let (cs, rest) ← readString rest
        return (c :: cs, rest)

/-- A run of digits and what follows it. -/
def readNat (cs : List Char) : Option (Nat × List Char) :=
  match cs.span Char.isDigit with
  | ([], _) => none
  | (ds, rest) => some (Nat.ofDigitChars 10 ds 0, rest)

/-- One more field of an ordered map. -/
def insertField (k : String) (x : Json) : List (String × Json) → List (String × Json)
  | [] => [(k, x)]
  | (k', x') :: fs =>
      if k < k' then (k, x) :: (k', x') :: fs
      else if k = k' then (k, x) :: fs
      else (k', x') :: insertField k x fs

mutual

def parseValue : Nat → List Char → Option (Json × List Char)
  | 0, _ => none
  | fuel + 1, cs =>
      match cs with
      | 'n' :: 'u' :: 'l' :: 'l' :: rest => some (.null, rest)
      | 't' :: 'r' :: 'u' :: 'e' :: rest => some (.bool true, rest)
      | 'f' :: 'a' :: 'l' :: 's' :: 'e' :: rest => some (.bool false, rest)
      | '"' :: rest => (readString rest).map fun r => (.str (String.ofList r.1), r.2)
      | '[' :: ']' :: rest => some (.arr [], rest)
      | '[' :: rest => (parseElems fuel rest).map fun r => (.arr r.1, r.2)
      | '\x7b' :: '\x7d' :: rest => some (.obj [], rest)
      | '\x7b' :: rest => (parseFields fuel [] rest).map fun r => (.obj r.1, r.2)
      | '-' :: rest => (readNat rest).map fun r => (.num (-r.1), r.2)
      | rest => (readNat rest).map fun r => (.num r.1, r.2)

/-- Elements up to and including the closing bracket. -/
def parseElems : Nat → List Char → Option (List Json × List Char)
  | 0, _ => none
  | fuel + 1, cs =>
      match parseValue fuel cs with
      | some (x, ',' :: rest) => (parseElems fuel rest).map fun r => (x :: r.1, r.2)
      | some (x, ']' :: rest) => some ([x], rest)
      | _ => none

/-- Fields up to and including the closing brace, on top of those already read. -/
def parseFields : Nat → List (String × Json) → List Char → Option (List (String × Json) × List Char)
  | 0, _, _ => none
  | fuel + 1, acc, cs =>
      match cs with
      | '"' :: cs =>
          match readString cs with
          | some (k, ':' :: cs) =>
              match parseValue fuel cs with
              | some (x, ',' :: rest) =>
                  parseFields fuel (insertField (String.ofList k) x acc) rest
              | some (x, '\x7d' :: rest) => some (insertField (String.ofList k) x acc, rest)
              | _ => none
          | _ => none
      | _ => none

end

/-- A whole text is one value. -/
def parseText (s : String) : Option Json :=
  match parseValue s.toList.length s.toList with
  | some (j, []) => some j
  | _ => none

/-! ## The round trip -/

theorem hexValue_hexDigit {n : Nat} (h : n < 16) : hexValue (hexDigit n) = some n := by
  revert n
  decide

theorem readString_short {c d : Char} (h : unescape d = some c) (hu : d ≠ 'u')
    (rest : List Char) :
    readString ('\\' :: d :: rest) = (readString rest).map fun r => (c :: r.1, r.2) := by
  cases hr : readString rest <;> simp [readString, hu, h, hr]

theorem readString_escape (c : Char) (rest : List Char) :
    readString (escape c ++ rest) = (readString rest).map fun r => (c :: r.1, r.2) := by
  unfold escape
  split_ifs with h₁ h₂ h₃ h₄ h₅ h₆ h₇ h₈
  · rw [h₁]; exact readString_short rfl (by decide) rest
  · rw [h₂]; exact readString_short rfl (by decide) rest
  · rw [h₃]; exact readString_short rfl (by decide) rest
  · rw [h₄]; exact readString_short rfl (by decide) rest
  · rw [h₅]; exact readString_short rfl (by decide) rest
  · rw [h₆]; exact readString_short rfl (by decide) rest
  · rw [h₇]; exact readString_short rfl (by decide) rest
  · have hzero : hexValue '0' = some 0 := by decide
    have hc : Char.ofNat (c.toNat / 16 * 16 + c.toNat % 16) = c := by
      rw [Nat.div_add_mod', Char.ofNat_toNat]
    cases hr : readString rest <;>
      simp [readString, hzero, hexValue_hexDigit (show c.toNat / 16 < 16 by omega),
        hexValue_hexDigit (show c.toNat % 16 < 16 by omega), hc, hr]
  · cases hr : readString rest <;> simp [readString, h₂, h₈, hr]

theorem readString_literal (cs rest : List Char) :
    readString (cs.flatMap escape ++ '"' :: rest) = some (cs, rest) := by
  induction cs with
  | nil => rfl
  | cons c cs ih => simp [List.append_assoc, readString_escape, ih]

/-- What follows a number must not go on with digits. -/
def NoDigit (rest : List Char) : Prop := ∀ c ∈ rest.head?, c.isDigit = false

theorem readNat_toDigits (n : Nat) {rest : List Char} (h : NoDigit rest) :
    readNat (Nat.toDigits 10 n ++ rest) = some (n, rest) := by
  have hall : ∀ c ∈ Nat.toDigits 10 n, c.isDigit = true := fun c hc =>
    Nat.isDigit_of_mem_toDigits (by omega) (by omega) hc
  have hspan : (Nat.toDigits 10 n ++ rest).span Char.isDigit = (Nat.toDigits 10 n, rest) := by
    rw [List.span_eq_takeWhile_dropWhile, List.takeWhile_append_of_pos hall,
      List.dropWhile_append_of_pos hall]
    cases rest with
    | nil => simp
    | cons c rest =>
      have hc : c.isDigit = false := h c (by simp)
      simp [hc]
  unfold readNat
  rw [hspan]
  cases hd : Nat.toDigits 10 n with
  | nil => exact absurd hd Nat.toDigits_ne_nil
  | cons d ds =>
    simp only
    rw [← hd, Nat.ofDigitChars_toDigits (by omega) (by omega)]

theorem noDigit_cons {c : Char} (h : c.isDigit = false) (rest : List Char) :
    NoDigit (c :: rest) := by
  intro c' hc'
  cases hc'
  exact h

/-- The fields of a canonical object come back in the order they were printed in. -/
theorem insertField_last {k : String} {x : Json} {fs : List (String × Json)}
    (h : ∀ f ∈ fs, f.1 < k) : insertField k x fs = fs ++ [(k, x)] := by
  induction fs with
  | nil => rfl
  | cons f fs ih =>
    obtain ⟨k', x'⟩ := f
    have hlt : k' < k := h (k', x') (by simp)
    have hne : k ≠ k' := fun heq => String.lt_irrefl k (heq ▸ hlt)
    rw [insertField, if_neg (String.lt_asymm hlt), if_neg hne,
      ih (fun f hf => h f (by simp [hf]))]
    rfl

/-- A printed integer starts with a sign or a digit. -/
theorem printInt_cases (n : Int) : (∃ m : Nat, n = m ∧ printInt n = Nat.toDigits 10 m) ∨
    ∃ m : Nat, n = -(m : Int) ∧ printInt n = '-' :: Nat.toDigits 10 m := by
  cases n with
  | ofNat m => exact Or.inl ⟨m, rfl, rfl⟩
  | negSucc m => exact Or.inr ⟨m + 1, rfl, rfl⟩

/-- A run of digits is not empty. -/
theorem toDigits_cons (n : Nat) :
    ∃ d ds, Nat.toDigits 10 n = d :: ds ∧ d.isDigit = true := by
  cases hd : Nat.toDigits 10 n with
  | nil => exact absurd hd Nat.toDigits_ne_nil
  | cons d ds =>
    have hmem : d ∈ Nat.toDigits 10 n := by simp [hd]
    exact ⟨d, ds, rfl, Nat.isDigit_of_mem_toDigits (by omega) (by omega) hmem⟩

/-- A printed value does not start with a closing bracket. -/
theorem print_head (j : Json) : ∃ c cs, print j = c :: cs ∧ c ≠ ']' := by
  cases j with
  | null => exact ⟨_, _, rfl, by decide⟩
  | bool b => cases b <;> exact ⟨_, _, rfl, by decide⟩
  | num n =>
    rcases printInt_cases n with ⟨m, -, hm⟩ | ⟨m, -, hm⟩
    · obtain ⟨d, ds, hd, hdig⟩ := toDigits_cons m
      refine ⟨d, ds, by rw [print, hm, hd], ?_⟩
      rintro rfl
      exact absurd hdig (by decide)
    · exact ⟨_, _, by rw [print, hm], by decide⟩
  | str s => exact ⟨_, _, by rw [print, printString]; rfl, by decide⟩
  | arr xs => exact ⟨_, _, by rw [print]; rfl, by decide⟩
  | obj fs => exact ⟨_, _, by rw [print]; rfl, by decide⟩

theorem printElems_head {xs : List Json} (h : xs ≠ []) :
    ∃ c cs, printElems xs = c :: cs ∧ c ≠ ']' := by
  match xs with
  | [] => exact absurd rfl h
  | [x] => rw [printElems]; exact print_head x
  | x :: y :: xs =>
    obtain ⟨c, cs, hc, hne⟩ := print_head x
    exact ⟨c, _, by rw [printElems, hc]; rfl, hne⟩

theorem printFields_head {fs : List (String × Json)} (h : fs ≠ []) :
    ∃ cs, printFields fs = '"' :: cs := by
  match fs with
  | [] => exact absurd rfl h
  | [(k, x)] => exact ⟨_, by rw [printFields, printString]; rfl⟩
  | (k, x) :: f :: fs => exact ⟨_, by rw [printFields, printString]; rfl⟩

theorem parseValue_digit {d : Char} (h : d.isDigit = true) (fuel : Nat) (cs : List Char) :
    parseValue (fuel + 1) (d :: cs) = (readNat (d :: cs)).map fun r => (.num r.1, r.2) := by
  unfold parseValue
  split
  all_goals
    first
    | rfl
    | rename_i heq
      injection heq with hd
      subst hd
      exact absurd h (by decide)

theorem parseValue_arr {c : Char} (h : c ≠ ']') (fuel : Nat) (cs : List Char) :
    parseValue (fuel + 1) ('[' :: c :: cs) =
      (parseElems fuel (c :: cs)).map fun r => (.arr r.1, r.2) := by
  simp [parseValue, h]

theorem parseValue_obj (fuel : Nat) (cs : List Char) :
    parseValue (fuel + 1) ('\x7b' :: '"' :: cs) =
      (parseFields fuel [] ('"' :: cs)).map fun r => (.obj r.1, r.2) := by
  simp [parseValue]

/-- With this fuel the parser reads what the printer writes. -/
structure Reads (fuel : Nat) : Prop where
  value : ∀ j rest, (print j).length ≤ fuel → Canonical j → NoDigit rest →
    parseValue fuel (print j ++ rest) = some (j, rest)
  elems : ∀ xs rest, xs ≠ [] → (printElems xs).length < fuel → (∀ x ∈ xs, Canonical x) →
    parseElems fuel (printElems xs ++ ']' :: rest) = some (xs, rest)
  fields : ∀ acc fs rest, fs ≠ [] → (printFields fs).length < fuel →
    (acc ++ fs).Pairwise (fun f g => f.1 < g.1) → (∀ f ∈ fs, Canonical f.2) →
    parseFields fuel acc (printFields fs ++ '\x7d' :: rest) = some (acc ++ fs, rest)

namespace Reads

variable {fuel : Nat} (ih : Reads fuel)
include ih

theorem value_succ {j : Json} {rest : List Char} (hlen : (print j).length ≤ fuel + 1)
    (hcan : Canonical j) (hrest : NoDigit rest) :
    parseValue (fuel + 1) (print j ++ rest) = some (j, rest) := by
  cases hcan with
  | null => simp [print, parseValue]
  | bool b => cases b <;> simp [print, parseValue]
  | num n =>
    rcases printInt_cases n with ⟨m, hn, hm⟩ | ⟨m, hn, hm⟩
    · obtain ⟨d, ds, hd, hdig⟩ := toDigits_cons m
      rw [print, hm, hd, List.cons_append, parseValue_digit hdig, ← List.cons_append, ← hd,
        readNat_toDigits m hrest, hn]
      rfl
    · rw [print, hm, List.cons_append]
      simp [parseValue, readNat_toDigits m hrest, hn]
  | str s =>
    rw [print, printString]
    simp [parseValue, readString_literal]
  | @arr xs elems =>
    rw [print] at hlen ⊢
    by_cases hxs : xs = []
    · subst hxs
      simp [printElems, parseValue]
    · obtain ⟨c, cs, hc, hne⟩ := printElems_head hxs
      have hall := ih.elems xs rest hxs (by simp at hlen; omega) elems
      simp only [hc, List.cons_append, List.append_assoc, List.nil_append] at hall ⊢
      rw [parseValue_arr hne, hall]
      rfl
  | @obj fs keys values =>
    rw [print] at hlen ⊢
    by_cases hfs : fs = []
    · subst hfs
      simp [printFields, parseValue]
    · obtain ⟨cs, hc⟩ := printFields_head hfs
      have hall := ih.fields [] fs rest hfs (by simp at hlen; omega) keys values
      simp only [hc, List.cons_append, List.append_assoc, List.nil_append] at hall ⊢
      rw [parseValue_obj, hall]
      rfl

theorem elems_succ {xs : List Json} {rest : List Char} (hne : xs ≠ [])
    (hlen : (printElems xs).length < fuel + 1) (hcan : ∀ x ∈ xs, Canonical x) :
    parseElems (fuel + 1) (printElems xs ++ ']' :: rest) = some (xs, rest) := by
  match xs with
  | [] => exact absurd rfl hne
  | [x] =>
    rw [printElems] at hlen ⊢
    rw [parseElems, ih.value x _ (by omega) (hcan x (by simp)) (noDigit_cons (by decide) rest)]
    rfl
  | x :: y :: xs =>
    rw [printElems] at hlen ⊢
    simp only [List.length_append, List.length_cons] at hlen
    rw [List.append_assoc, List.cons_append, parseElems,
      ih.value x _ (by omega) (hcan x (by simp)) (noDigit_cons (by decide) _)]
    simp only
    rw [ih.elems (y :: xs) rest (by simp) (by omega) (fun z hz => hcan z (by simp [hz]))]
    rfl

theorem fields_succ {acc fs : List (String × Json)} {rest : List Char} (hne : fs ≠ [])
    (hlen : (printFields fs).length < fuel + 1)
    (hkeys : (acc ++ fs).Pairwise (fun f g => f.1 < g.1)) (hcan : ∀ f ∈ fs, Canonical f.2) :
    parseFields (fuel + 1) acc (printFields fs ++ '\x7d' :: rest) = some (acc ++ fs, rest) := by
  match fs with
  | [] => exact absurd rfl hne
  | [(k, x)] =>
    have hlast : ∀ f ∈ acc, f.1 < k := fun f hf =>
      (List.pairwise_append.mp hkeys).2.2 f hf (k, x) (by simp)
    rw [printFields, printString] at hlen ⊢
    simp only [List.length_append, List.length_cons] at hlen
    simp only [List.cons_append, List.append_assoc, List.nil_append]
    rw [parseFields, readString_literal]
    simp only
    rw [ih.value x _ (by omega) (hcan (k, x) (by simp)) (noDigit_cons (by decide) rest)]
    simp [insertField_last hlast]
  | (k, x) :: f :: fs =>
    have hlast : ∀ f ∈ acc, f.1 < k := fun f hf =>
      (List.pairwise_append.mp hkeys).2.2 f hf (k, x) (by simp)
    rw [printFields, printString] at hlen ⊢
    simp only [List.length_append, List.length_cons] at hlen
    simp only [List.cons_append, List.append_assoc, List.nil_append]
    rw [parseFields, readString_literal]
    simp only
    rw [ih.value x _ (by omega) (hcan (k, x) (by simp)) (noDigit_cons (by decide) _)]
    simp only [String.ofList_toList, insertField_last hlast]
    rw [ih.fields _ (f :: fs) rest (by simp) (by omega) (by simpa using hkeys)
      (fun g hg => hcan g (by simp [hg]))]
    simp

end Reads

/-- The three parsers on the three printed forms, by induction on the fuel. -/
theorem reads (fuel : Nat) : Reads fuel := by
  induction fuel with
  | zero =>
    refine ⟨fun j rest h => ?_, fun _ _ _ h => ?_, fun _ _ _ _ h => ?_⟩
    · obtain ⟨c, cs, hc, -⟩ := print_head j
      rw [hc] at h
      exact absurd h (by simp)
    · exact absurd h (by omega)
    · exact absurd h (by omega)
  | succ fuel ih =>
    exact ⟨fun _ _ hlen hcan hrest => ih.value_succ hlen hcan hrest,
      fun _ _ hne hlen hcan => ih.elems_succ hne hlen hcan,
      fun _ _ _ hne hlen hkeys hcan => ih.fields_succ hne hlen hkeys hcan⟩

/-- **What was printed parses back.** -/
theorem parseText_print {j : Json} (h : Canonical j) :
    parseText (String.ofList (print j)) = some j := by
  have := (reads (print j).length).value j [] (Nat.le_refl _) h (by intro c hc; cases hc)
  rw [List.append_nil] at this
  unfold parseText
  rw [String.toList_ofList, this]

/-- The compact text format as a codec. -/
def text : Codec where
  dump := fun j => String.ofList (print j)
  parse := parseText
  parse_dump := fun _ => parseText_print

example : text.dump (.obj [("op", .str "a\"b"), ("ttl", .num (-1))]) =
    "\x7b\"op\":\"a\\\"b\",\"ttl\":-1\x7d" := by decide +kernel

end Json
end Lib
end OrcDb

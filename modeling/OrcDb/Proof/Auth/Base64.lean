import OrcDb.Auth.JwtValidator

/-!
# Base64url

The encoder cuts its bytes into groups of three and writes four characters for each, the decoder
goes the way back (`decode_encode`); in between the alphabet is changed and the padding is taken
off and put back. `base64url_inverse` is both directions.

On other strings the decoder is less regular. Its table has the value -1 for the foreign bytes it
spells out and 0 for those from 128 on, and what -1 does depends on the place: it ends the loop
at the first two characters of a group and drops one byte at the others. So one foreign byte may
stand for another if both are on the same side of 128, or if the loop never gets as far as where
they stand (`Reached`), and otherwise not (`decode_set_foreign_iff`).
-/

set_option autoImplicit false

namespace OrcDb
namespace Proof

open Lib Base64

/-! ## Characters -/

/-- A letter, a digit, `-` or `_`. -/
def UrlChar (c : UInt8) : Prop :=
  65 ≤ c ∧ c ≤ 90 ∨ 97 ≤ c ∧ c ≤ 122 ∨ 48 ≤ c ∧ c ≤ 57 ∨ c = 45 ∨ c = 95

instance : DecidablePred UrlChar := fun _ => inferInstanceAs (Decidable (_ ∨ _))

/-- What there is to know about the 64 characters. -/
theorem decoding_char {i : Nat} (h : i < 64) : decoding (char i) = some i := by
  have hall : ∀ i < 64, decoding (char i) = some i := by decide
  exact hall i h

theorem ofUrl_toUrl_char {i : Nat} (h : i < 64) : ofUrl (toUrl (char i)) = char i := by
  have hall : ∀ i < 64, ofUrl (toUrl (char i)) = char i := by decide
  exact hall i h

theorem urlChar_toUrl_char {i : Nat} (h : i < 64) : UrlChar (toUrl (char i)) := by
  have hall : ∀ i < 64, UrlChar (toUrl (char i)) := by decide
  exact hall i h

/-- The padding is no character, and a dot is none. -/
theorem UrlChar.ne {c : UInt8} (h : UrlChar c) : c ≠ 61 ∧ c ≠ 46 := by
  constructor <;> rintro rfl <;> exact absurd h (by decide)

theorem decoding_pad : decoding 61 = none := by decide

/-- The character of a sextet, as it stands in a token. -/
def sextet (i : Nat) : UInt8 := toUrl (char (i % 64))

theorem toUrl_charAt (val shift : Nat) : toUrl (charAt val shift) = sextet (val / 2 ^ shift) := rfl

theorem urlChar_sextet (i : Nat) : UrlChar (sextet i) :=
  urlChar_toUrl_char (Nat.mod_lt _ (by omega))

theorem sextet_ne_pad (i : Nat) : sextet i ≠ 61 := (urlChar_sextet i).ne.1

theorem decoding_sextet (i : Nat) : decoding (ofUrl (sextet i)) = some (i % 64) := by
  rw [sextet, ofUrl_toUrl_char (Nat.mod_lt _ (by omega)), decoding_char (Nat.mod_lt _ (by omega))]

/-! The padding is taken off behind the last character and nowhere else. -/

theorem rdropWhile_append_of_not {α : Type} {p : α → Bool} {xs : List α}
    (h : ∀ x ∈ xs, p x = false) (ys : List α) :
    (xs ++ ys).rdropWhile p = xs ++ ys.rdropWhile p := by
  have hxs : xs.reverse.dropWhile p = xs.reverse := by
    cases hr : xs.reverse with
    | nil => rfl
    | cons x rest =>
      have hx : x ∈ xs := by
        rw [← List.mem_reverse, hr]
        exact List.mem_cons_self
      rw [List.dropWhile_cons_of_neg (by simp [h x hx])]
  rw [List.rdropWhile, List.rdropWhile, List.reverse_append, List.dropWhile_append]
  split
  · rename_i hempty
    rw [List.isEmpty_iff.mp hempty, hxs]
    simp
  · simp

theorem rdropWhile_pad {xs : Bytes} (h : ∀ x ∈ xs, x ≠ 61) (n : Nat) :
    (xs ++ List.replicate n 61).rdropWhile (· = 61) = xs := by
  rw [rdropWhile_append_of_not (by simpa using h)]
  have hnil : (List.replicate n (61 : UInt8)).rdropWhile (· = 61) = [] := by
    rw [List.rdropWhile_eq_nil_iff]
    intro x hx
    simp [(List.mem_replicate.mp hx).2]
  rw [hnil, List.append_nil]

theorem encode_one (a : UInt8) :
    encode [a] = [sextet (a.toNat * 2 ^ 16 / 2 ^ 18), sextet (a.toNat * 2 ^ 16 / 2 ^ 12)] := by
  change ([sextet (a.toNat * 2 ^ 16 / 2 ^ 18), sextet (a.toNat * 2 ^ 16 / 2 ^ 12)] ++
    List.replicate 2 61).rdropWhile (· = 61) = _
  exact rdropWhile_pad (by simp [sextet_ne_pad]) 2

theorem encode_two (a b : UInt8) :
    encode [a, b] =
      [sextet ((a.toNat * 2 ^ 16 + b.toNat * 2 ^ 8) / 2 ^ 18),
       sextet ((a.toNat * 2 ^ 16 + b.toNat * 2 ^ 8) / 2 ^ 12),
       sextet ((a.toNat * 2 ^ 16 + b.toNat * 2 ^ 8) / 2 ^ 6)] := by
  change ([sextet ((a.toNat * 2 ^ 16 + b.toNat * 2 ^ 8) / 2 ^ 18),
    sextet ((a.toNat * 2 ^ 16 + b.toNat * 2 ^ 8) / 2 ^ 12),
    sextet ((a.toNat * 2 ^ 16 + b.toNat * 2 ^ 8) / 2 ^ 6)] ++
    List.replicate 1 61).rdropWhile (· = 61) = _
  exact rdropWhile_pad (by simp [sextet_ne_pad]) 1

theorem encode_three (a b c : UInt8) (rest : Bytes) :
    encode (a :: b :: c :: rest) =
      [sextet ((a.toNat * 2 ^ 16 + b.toNat * 2 ^ 8 + c.toNat) / 2 ^ 18),
       sextet ((a.toNat * 2 ^ 16 + b.toNat * 2 ^ 8 + c.toNat) / 2 ^ 12),
       sextet ((a.toNat * 2 ^ 16 + b.toNat * 2 ^ 8 + c.toNat) / 2 ^ 6),
       sextet ((a.toNat * 2 ^ 16 + b.toNat * 2 ^ 8 + c.toNat) / 2 ^ 0)] ++ encode rest := by
  rw [encode, encodeGroups, List.map_append,
    rdropWhile_append_of_not (by simp [toUrl_charAt, sextet_ne_pad])]
  rfl

theorem ofNat_eq_of_toNat {x : UInt8} {n : Nat} (h : n = x.toNat) : UInt8.ofNat n = x := by
  rw [h, UInt8.ofNat_toNat]

theorem decode_four (i₀ i₁ i₂ i₃ : Nat) (rest : Bytes) :
    decode ([sextet i₀, sextet i₁, sextet i₂, sextet i₃] ++ rest) =
      [UInt8.ofNat (i₀ % 64 * 4 + i₁ % 64 / 16),
       UInt8.ofNat (i₁ % 64 % 16 * 16 + i₂ % 64 / 4),
       UInt8.ofNat (i₂ % 64 % 4 * 64 + i₃ % 64)] ++ decode rest := by
  unfold decode
  -- a group more does not change how much padding there is
  have hpad : (([sextet i₀, sextet i₁, sextet i₂, sextet i₃] ++ rest).map ofUrl).length % 4 =
      (rest.map ofUrl).length % 4 := by
    simp only [List.length_map, List.length_append, List.length_cons, List.length_nil]
    omega
  dsimp only
  rw [hpad]
  simp only [List.map_cons, List.cons_append, List.nil_append, decodeGroups, decoding_sextet,
    Option.elim_some]

theorem decode_encode (data : Bytes) : decode (encode data) = data := by
  induction data using encodeGroups.induct with
  | case1 => rfl
  | case2 a =>
    have ha := a.toNat_lt
    rw [encode_one]
    simp only [decode, List.map_cons, List.map_nil, List.length_cons, List.length_nil,
      List.cons_append, List.nil_append, List.replicate, decodeGroups, decoding_sextet]
    simp only [decoding_pad, List.append_nil]
    exact congrArg (· :: []) (ofNat_eq_of_toNat (by omega))
  | case3 a b =>
    have ha := a.toNat_lt
    have hb := b.toNat_lt
    rw [encode_two]
    simp only [decode, List.map_cons, List.map_nil, List.length_cons, List.length_nil,
      List.cons_append, List.nil_append, List.replicate, decodeGroups, decoding_sextet]
    simp only [decoding_pad, List.append_nil]
    congr 1
    · exact ofNat_eq_of_toNat (by omega)
    · congr 1
      exact ofNat_eq_of_toNat (by omega)
  | case4 a b c rest ih =>
    have ha := a.toNat_lt
    have hb := b.toNat_lt
    have hc := c.toNat_lt
    rw [encode_three, decode_four, ih]
    simp only [List.cons_append, List.nil_append]
    congr 1
    · exact ofNat_eq_of_toNat (by omega)
    · congr 1
      · exact ofNat_eq_of_toNat (by omega)
      · congr 1
        exact ofNat_eq_of_toNat (by omega)

/-- The encoding is spelled in the alphabet of Base64url, without padding. -/
theorem urlChar_of_mem_encode {data : Bytes} : ∀ c ∈ encode data, UrlChar c := by
  induction data using encodeGroups.induct with
  | case1 => exact fun c hc => absurd hc List.not_mem_nil
  | case2 a =>
    rw [encode_one]
    simp [urlChar_sextet]
  | case3 a b =>
    rw [encode_two]
    simp [urlChar_sextet]
  | case4 a b c rest ih =>
    rw [encode_three, List.forall_mem_append]
    exact ⟨by simp [urlChar_sextet], ih⟩

theorem dot_notMem_encode (data : Bytes) : 46 ∉ encode data :=
  fun hdot => (urlChar_of_mem_encode 46 hdot).ne.2 rfl

/-- `Base64UrlDecode` undoes `Base64UrlEncode` and, on what it can have made, the other way round;
and the encoding has letters, digits, `-` and `_` only. -/
theorem base64url_inverse :
    (∀ data, decode (encode data) = data ∧ ∀ c ∈ encode data, UrlChar c) ∧
      ∀ s ∈ Set.range encode, encode (decode s) = s := by
  refine ⟨fun data => ⟨decode_encode data, urlChar_of_mem_encode⟩, ?_⟩
  rintro s ⟨data, rfl⟩
  rw [decode_encode]

/-! ## Foreign bytes -/

/-- A byte that neither alphabet has. -/
def Foreign (c : UInt8) : Prop := ¬UrlChar c ∧ c ≠ 43 ∧ c ≠ 47

instance : DecidablePred Foreign := fun _ => inferInstanceAs (Decidable (_ ∧ _))

theorem Foreign.ofUrl_eq {c : UInt8} (h : Foreign c) : ofUrl c = c := by
  have h45 : c ≠ 45 := fun heq => h.1 (by simp [UrlChar, heq])
  have h95 : c ≠ 95 := fun heq => h.1 (by simp [UrlChar, heq])
  rw [ofUrl, if_neg h45, if_neg h95]

/-- The table: -1 as far as it is spelled out, and 0 behind. -/
theorem Foreign.decoding_eq {c : UInt8} (h : Foreign c) :
    decoding c = if 128 ≤ c then some 0 else none := by
  obtain ⟨hurl, h43, h47⟩ := h
  simp only [UrlChar, not_or] at hurl
  obtain ⟨hupper, hlower, hdigit, -, -⟩ := hurl
  simp only [decoding, Bool.and_eq_true, decide_eq_true_eq, if_neg hupper, if_neg hlower,
    if_neg hdigit, if_neg h43, if_neg h47]

/-! ## The loop, group by group -/

/-- What a group puts out once its first two characters have values. -/
def groupBytes (v₀ v₁ : Nat) (v₂ v₃ : Option Nat) : Bytes :=
  [UInt8.ofNat (v₀ * 4 + v₁ / 16)] ++
    (match v₂ with
      | some v₂ => [UInt8.ofNat (v₁ % 16 * 16 + v₂ / 4)]
      | none => []) ++
    (match v₃ with
      | some v₃ => [UInt8.ofNat ((v₂.elim 3 (· % 4)) * 64 + v₃)]
      | none => [])

theorem length_groupBytes (v₀ v₁ : Nat) (v₂ v₃ : Option Nat) :
    (groupBytes v₀ v₁ v₂ v₃).length = 1 + v₂.isSome.toNat + v₃.isSome.toNat := by
  cases v₂ <;> cases v₃ <;> rfl

section Group

variable {c₀ c₁ c₂ c₃ : UInt8} {rest : Bytes}

theorem decodeGroups_read {v₀ v₁ : Nat} (h₀ : decoding c₀ = some v₀) (h₁ : decoding c₁ = some v₁) :
    decodeGroups (c₀ :: c₁ :: c₂ :: c₃ :: rest) =
      groupBytes v₀ v₁ (decoding c₂) (decoding c₃) ++ decodeGroups rest := by
  simp only [decodeGroups, h₀, h₁]
  rfl

theorem decodeGroups_break (h : ¬((decoding c₀).isSome ∧ (decoding c₁).isSome)) :
    decodeGroups (c₀ :: c₁ :: c₂ :: c₃ :: rest) = [] := by
  cases h₀ : decoding c₀ with
  | none => simp only [decodeGroups, h₀]
  | some v₀ =>
    cases h₁ : decoding c₁ with
    | none => simp only [decodeGroups, h₀, h₁]
    | some v₁ => exact absurd (by simp [h₀, h₁]) h

theorem decodeGroups_eq_nil_iff :
    decodeGroups (c₀ :: c₁ :: c₂ :: c₃ :: rest) = [] ↔
      ¬((decoding c₀).isSome ∧ (decoding c₁).isSome) := by
  refine ⟨?_, decodeGroups_break⟩
  rintro hnil ⟨h₀, h₁⟩
  obtain ⟨v₀, h₀⟩ := Option.isSome_iff_exists.mp h₀
  obtain ⟨v₁, h₁⟩ := Option.isSome_iff_exists.mp h₁
  rw [decodeGroups_read h₀ h₁] at hnil
  simp [groupBytes] at hnil

/-- Whether a group is read shows in what comes out. -/
theorem read_iff_of_decodeGroups_eq {d₀ d₁ : UInt8}
    (heq : decodeGroups (d₀ :: d₁ :: c₂ :: c₃ :: rest) =
      decodeGroups (c₀ :: c₁ :: c₂ :: c₃ :: rest)) :
    ((decoding d₀).isSome ∧ (decoding d₁).isSome) ↔
      ((decoding c₀).isSome ∧ (decoding c₁).isSome) := by
  rw [← not_iff_not, ← decodeGroups_eq_nil_iff, ← decodeGroups_eq_nil_iff, heq]

/-- A group that is read puts out a byte for each of its last two characters that has a value. -/
theorem values_eq_of_decodeGroups_eq {d₂ d₃ : UInt8}
    (hread : (decoding c₀).isSome ∧ (decoding c₁).isSome)
    (heq : decodeGroups (c₀ :: c₁ :: d₂ :: d₃ :: rest) =
      decodeGroups (c₀ :: c₁ :: c₂ :: c₃ :: rest)) :
    (decoding d₂).isSome.toNat + (decoding d₃).isSome.toNat =
      (decoding c₂).isSome.toNat + (decoding c₃).isSome.toNat := by
  obtain ⟨v₀, h₀⟩ := Option.isSome_iff_exists.mp hread.1
  obtain ⟨v₁, h₁⟩ := Option.isSome_iff_exists.mp hread.2
  rw [decodeGroups_read h₀ h₁, decodeGroups_read h₀ h₁] at heq
  have hlength := congrArg List.length heq
  simp only [List.length_append, length_groupBytes] at hlength
  omega

end Group

/-- The induction the loop makes over a padded string. -/
theorem groups_induction {motive : (t : Bytes) → t.length % 4 = 0 → Prop}
    (nil : motive [] rfl)
    (group : ∀ c₀ c₁ c₂ c₃ rest hrest h, motive rest hrest →
      motive (c₀ :: c₁ :: c₂ :: c₃ :: rest) h) :
    ∀ (t : Bytes) (h : t.length % 4 = 0), motive t h
  | [], _ => nil
  | [_], h => absurd h (by simp)
  | [_, _], h => absurd h (by simp)
  | [_, _, _], h => absurd h (by simp)
  | c₀ :: c₁ :: c₂ :: c₃ :: rest, h => by
    have hrest : rest.length % 4 = 0 := by
      simp only [List.length_cons] at h
      omega
    exact group c₀ c₁ c₂ c₃ rest hrest h (groups_induction nil group rest hrest)

/-! ## How far the loop gets -/

/-- The loop gets to position `i`, and on from there if `i` itself does not end it: all other
first and second characters of the groups up to the one of `i` have values. -/
def Reached (value : Nat → Option Nat) (i : Nat) : Prop :=
  ∀ j < 4 * (i / 4 + 1), j ≠ i → j % 4 < 2 → (value j).isSome

instance (value : Nat → Option Nat) (i : Nat) : Decidable (Reached value i) :=
  inferInstanceAs (Decidable (∀ j < _, _))

theorem reached_of_lt_four {value : Nat → Option Nat} {i : Nat} (h : i < 4) :
    Reached value i ↔ (i ≠ 0 → (value 0).isSome) ∧ (i ≠ 1 → (value 1).isSome) := by
  constructor
  · intro hreached
    exact ⟨fun hi => hreached 0 (by omega) hi.symm (by decide),
      fun hi => hreached 1 (by omega) hi.symm (by decide)⟩
  · rintro ⟨h₀, h₁⟩ j hj hne hplace
    obtain rfl | rfl : j = 0 ∨ j = 1 := by omega
    · exact h₀ hne.symm
    · exact h₁ hne.symm

theorem reached_add_four {value : Nat → Option Nat} {i : Nat} :
    Reached value (i + 4) ↔
      ((value 0).isSome ∧ (value 1).isSome) ∧ Reached (fun j => value (j + 4)) i := by
  constructor
  · intro hreached
    refine ⟨⟨hreached 0 (by omega) (by omega) (by decide),
      hreached 1 (by omega) (by omega) (by decide)⟩, ?_⟩
    intro j hj hne hplace
    exact hreached (j + 4) (by omega) (by omega) (by omega)
  · rintro ⟨⟨h₀, h₁⟩, hrest⟩ j hj hne hplace
    obtain rfl | rfl | ⟨k, rfl⟩ : j = 0 ∨ j = 1 ∨ ∃ k, j = k + 4 := by
      by_cases hlow : j < 4
      · omega
      · exact Or.inr (Or.inr ⟨j - 4, by omega⟩)
    · exact h₀
    · exact h₁
    · exact hrest k (by omega) (by omega) (by omega)

/-- The value of a character of the padded string. -/
def valueIn (t : Bytes) (j : Nat) : Option Nat := t[j]?.bind decoding

theorem eq_of_toNat_eq : ∀ {a b : Bool}, a.toNat = b.toNat → a = b := by decide

section Places

variable {c₀ c₁ c₂ c₃ d : UInt8} {rest : Bytes}

/-- At the first character of a group no value ends the loop, if the second has one. -/
theorem decodeGroups_set_zero_iff
    (hvalue : (decoding d).isSome = (decoding c₀).isSome → decoding d = decoding c₀) :
    decodeGroups (d :: c₁ :: c₂ :: c₃ :: rest) = decodeGroups (c₀ :: c₁ :: c₂ :: c₃ :: rest) ↔
      decoding d = decoding c₀ ∨ ¬(decoding c₁).isSome := by
  constructor
  · intro heq
    rw [or_iff_not_imp_right, not_not]
    intro h₁
    exact hvalue (Bool.eq_iff_iff.mpr (by simpa [h₁] using read_iff_of_decodeGroups_eq heq))
  · rintro (heq | h₁)
    · simp only [decodeGroups, heq]
    · rw [decodeGroups_break fun h => h₁ h.2, decodeGroups_break fun h => h₁ h.2]

/-- At the second it is the same the other way round. -/
theorem decodeGroups_set_one_iff
    (hvalue : (decoding d).isSome = (decoding c₁).isSome → decoding d = decoding c₁) :
    decodeGroups (c₀ :: d :: c₂ :: c₃ :: rest) = decodeGroups (c₀ :: c₁ :: c₂ :: c₃ :: rest) ↔
      decoding d = decoding c₁ ∨ ¬(decoding c₀).isSome := by
  constructor
  · intro heq
    rw [or_iff_not_imp_right, not_not]
    intro h₀
    exact hvalue (Bool.eq_iff_iff.mpr (by simpa [h₀] using read_iff_of_decodeGroups_eq heq))
  · rintro (heq | h₀)
    · simp only [decodeGroups, heq]
    · rw [decodeGroups_break fun h => h₀ h.1, decodeGroups_break fun h => h₀ h.1]

/-- At the third and the fourth it is a byte more or less, if the group is read at all. -/
theorem decodeGroups_set_two_iff
    (hvalue : (decoding d).isSome = (decoding c₂).isSome → decoding d = decoding c₂) :
    decodeGroups (c₀ :: c₁ :: d :: c₃ :: rest) = decodeGroups (c₀ :: c₁ :: c₂ :: c₃ :: rest) ↔
      decoding d = decoding c₂ ∨ ¬((decoding c₀).isSome ∧ (decoding c₁).isSome) := by
  constructor
  · intro heq
    rw [or_iff_not_imp_right, not_not]
    intro hread
    exact hvalue (eq_of_toNat_eq (Nat.add_right_cancel (values_eq_of_decodeGroups_eq hread heq)))
  · rintro (heq | hbreak)
    · simp only [decodeGroups, heq]
    · rw [decodeGroups_break hbreak, decodeGroups_break hbreak]

theorem decodeGroups_set_three_iff
    (hvalue : (decoding d).isSome = (decoding c₃).isSome → decoding d = decoding c₃) :
    decodeGroups (c₀ :: c₁ :: c₂ :: d :: rest) = decodeGroups (c₀ :: c₁ :: c₂ :: c₃ :: rest) ↔
      decoding d = decoding c₃ ∨ ¬((decoding c₀).isSome ∧ (decoding c₁).isSome) := by
  constructor
  · intro heq
    rw [or_iff_not_imp_right, not_not]
    intro hread
    exact hvalue (eq_of_toNat_eq (Nat.add_left_cancel (values_eq_of_decodeGroups_eq hread heq)))
  · rintro (heq | hbreak)
    · simp only [decodeGroups, heq]
    · rw [decodeGroups_break hbreak, decodeGroups_break hbreak]

/-- Behind the group it is the loop's next round, if there is one. -/
theorem decodeGroups_rest_iff {rest' : Bytes} :
    decodeGroups (c₀ :: c₁ :: c₂ :: c₃ :: rest') = decodeGroups (c₀ :: c₁ :: c₂ :: c₃ :: rest) ↔
      ¬((decoding c₀).isSome ∧ (decoding c₁).isSome) ∨ decodeGroups rest' = decodeGroups rest := by
  constructor
  · intro heq
    rw [or_iff_not_imp_left, not_not]
    rintro ⟨h₀, h₁⟩
    obtain ⟨v₀, h₀⟩ := Option.isSome_iff_exists.mp h₀
    obtain ⟨v₁, h₁⟩ := Option.isSome_iff_exists.mp h₁
    rw [decodeGroups_read h₀ h₁, decodeGroups_read h₀ h₁] at heq
    exact List.append_cancel_left heq
  · rintro (hbreak | heq)
    · rw [decodeGroups_break hbreak, decodeGroups_break hbreak]
    · simp only [decodeGroups, heq]

end Places

/-- A character may be changed for one with the same value, or out of the loop's reach. -/
theorem decodeGroups_set_iff {d : UInt8} {t : Bytes} (h4 : t.length % 4 = 0) {i : Nat}
    (hi : i < t.length)
    (hvalue : (decoding d).isSome = (decoding t[i]).isSome → decoding d = decoding t[i]) :
    decodeGroups (t.set i d) = decodeGroups t ↔
      decoding d = decoding t[i] ∨ ¬Reached (valueIn t) i := by
  induction t, h4 using groups_induction generalizing i with
  | nil => exact absurd hi (by simp)
  | group c₀ c₁ c₂ c₃ rest hrest h ih =>
    match i, hi, hvalue with
    | 0, _, hvalue =>
      rw [reached_of_lt_four (by decide)]
      simpa [valueIn] using decodeGroups_set_zero_iff hvalue
    | 1, _, hvalue =>
      rw [reached_of_lt_four (by decide)]
      simpa [valueIn] using decodeGroups_set_one_iff hvalue
    | 2, _, hvalue =>
      rw [reached_of_lt_four (by decide)]
      simpa [valueIn] using decodeGroups_set_two_iff hvalue
    | 3, _, hvalue =>
      rw [reached_of_lt_four (by decide)]
      simpa [valueIn] using decodeGroups_set_three_iff hvalue
    | k + 4, hi, hvalue =>
      have hk : k < rest.length := by
        simp only [List.length_cons] at hi
        omega
      rw [reached_add_four]
      change decodeGroups (c₀ :: c₁ :: c₂ :: c₃ :: rest.set k d) = _ ↔
        decoding d = decoding rest[k] ∨
          ¬(((decoding c₀).isSome ∧ (decoding c₁).isSome) ∧ Reached (valueIn rest) k)
      rw [decodeGroups_rest_iff, ih hk hvalue, or_left_comm, ← not_and_or]

/-! ## Strings -/

/-- The value of a character of the string `Base64UrlDecode` is given; behind its end there is
padding, which has none. -/
def valueAt (s : Bytes) (j : Nat) : Option Nat := s[j]?.bind fun c => decoding (ofUrl c)

/-- The padding that makes a string one of groups of four. -/
def padding (s : Bytes) : Bytes := List.replicate ((4 - s.length % 4) % 4) 61

theorem decode_eq_padded (s : Bytes) : decode s = decodeGroups (s.map ofUrl ++ padding s) := by
  simp only [decode, padding, List.length_map]

theorem length_padded (s : Bytes) : (s.map ofUrl ++ padding s).length % 4 = 0 := by
  simp only [padding, List.length_append, List.length_map, List.length_replicate]
  omega

theorem decoding_padding (s : Bytes) (j : Nat) : (padding s)[j]?.bind decoding = none := by
  rw [padding, List.getElem?_replicate]
  split
  · exact decoding_pad
  · rfl

theorem valueIn_padded (s : Bytes) : valueIn (s.map ofUrl ++ padding s) = valueAt s := by
  funext j
  unfold valueIn valueAt
  by_cases hj : j < s.length
  · rw [List.getElem?_append_left (by simpa using hj)]
    simp [hj]
  · have hnone : s[j]? = none := List.getElem?_eq_none (by omega)
    rw [List.getElem?_append_right (by simpa using hj), decoding_padding, hnone, Option.bind_none]

/-- One foreign byte may stand for another where the table has the same value for both, or where
the decoder does not get to. -/
theorem decode_set_foreign_iff {s : Bytes} {i : Nat} (hi : i < s.length) {d : UInt8}
    (hs : Foreign s[i]) (hd : Foreign d) :
    decode (s.set i d) = decode s ↔ (128 ≤ d ↔ 128 ≤ s[i]) ∨ ¬Reached (valueAt s) i := by
  have hset : (s.set i d).map ofUrl ++ padding (s.set i d) =
      (s.map ofUrl ++ padding s).set i d := by
    rw [List.map_set, hd.ofUrl_eq, List.set_append_left _ _ (by simpa using hi), padding, padding,
      List.length_set]
  have hlt : i < (s.map ofUrl ++ padding s).length := by
    rw [List.length_append, List.length_map]
    omega
  have hget : (s.map ofUrl ++ padding s)[i] = s[i] := by
    rw [List.getElem_append_left (by simpa using hi), List.getElem_map, hs.ofUrl_eq]
  have hclass : decoding d = decoding s[i] ↔ (128 ≤ d ↔ 128 ≤ s[i]) := by
    rw [hd.decoding_eq, hs.decoding_eq]
    by_cases hdlow : 128 ≤ d <;> by_cases hslow : 128 ≤ s[i] <;> simp [hdlow, hslow]
  have hvalue : (decoding d).isSome = (decoding s[i]).isSome → decoding d = decoding s[i] := by
    rw [hd.decoding_eq, hs.decoding_eq]
    by_cases hdlow : 128 ≤ d <;> by_cases hslow : 128 ≤ s[i] <;> simp [hdlow, hslow]
  rw [decode_eq_padded, decode_eq_padded, hset,
    decodeGroups_set_iff (length_padded s) hlt (by rwa [hget]), hget, hclass, valueIn_padded]

/-- `?` may stand for `!` anywhere, the byte 128 only where a second `!` ends the loop anyway. -/
theorem decode_set_foreign_iff_mark :
    decode ([33, 65, 65, 65].set 0 63) = decode [33, 65, 65, 65] ∧
      decode ([33, 33, 65, 65].set 0 128) = decode [33, 33, 65, 65] :=
  ⟨(decode_set_foreign_iff (s := [33, 65, 65, 65]) (by decide) (by decide) (by decide)).mpr
      (Or.inl (by decide)),
    (decode_set_foreign_iff (s := [33, 33, 65, 65]) (by decide) (by decide) (by decide)).mpr
      (Or.inr (by decide))⟩

/-- With the byte 128 in the place of `!` three bytes come out. -/
theorem decode_set_foreign_fails :
    Foreign 33 ∧ Foreign 128 ∧ decode [33, 65, 65, 65] = [] ∧
      decode ([33, 65, 65, 65].set 0 128) = [0, 0, 0] := by
  decide

end Proof
end OrcDb

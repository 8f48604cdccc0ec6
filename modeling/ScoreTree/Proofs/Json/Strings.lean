import ScoreTree.Proofs.Json.Grammar

/-!
# Reading strings

A string is read as what its text spells, up to the closing quote. A string that is passed over ends
at the same quote.
-/

namespace ScoreTree
namespace Json
namespace Reader

/-! ## Escapes -/

theorem hexDigit?_octet {c : Char} {n : Nat} (h : IsHexDigit c n) :
    c.toNat < 128 ∧ hexDigit? (UInt8.ofNat c.toNat) = some n := by
  have hlower : ∀ n < 16, (Nat.digitChar n).toNat < 128 ∧
      hexDigit? (UInt8.ofNat (Nat.digitChar n).toNat) = some n := by decide
  have hupper : ∀ n < 16, (Nat.digitChar n).toUpper.toNat < 128 ∧
      hexDigit? (UInt8.ofNat (Nat.digitChar n).toUpper.toNat) = some n := by decide
  obtain ⟨hn, rfl | rfl⟩ := h
  · exact hlower n hn
  · exact hupper n hn

theorem run?_fourHex {digits : List Char} {n : Nat} (h : IsCode digits n) (s : List UInt8) :
    run? fourHex (octets digits ++ s) = some (n, s) := by
  cases h with
  | digits ha hb hc hd =>
    obtain ⟨ha, hi⟩ := hexDigit?_octet ha
    obtain ⟨hb, hj⟩ := hexDigit?_octet hb
    obtain ⟨hc, hk⟩ := hexDigit?_octet hc
    obtain ⟨hd, hl⟩ := hexDigit?_octet hd
    rw [octets_cons_ascii ha, octets_cons_ascii hb, octets_cons_ascii hc, octets_cons_ascii hd,
      octets_nil, fourHex, run?_bind, run?_get, Option.bind_some]
    simp only [List.cons_append, List.nil_append, run?_bind, run?_set, Option.bind_some, hexValue?,
      hi, hj, hk, hl]
    rfl

theorem run?_escape_short {e c : Char} (h : (e, c) ∈ shortEscapes) (cs : List Char)
    (s : List UInt8) : run? escape (octets (e :: cs) ++ s) = some (c, octets cs ++ s) := by
  simp only [shortEscapes, List.mem_cons, Prod.mk.injEq, List.not_mem_nil, or_false] at h
  rcases h with ⟨rfl, rfl⟩ | ⟨rfl, rfl⟩ | ⟨rfl, rfl⟩ | ⟨rfl, rfl⟩ | ⟨rfl, rfl⟩ | ⟨rfl, rfl⟩ |
    ⟨rfl, rfl⟩ | ⟨rfl, rfl⟩ <;> rfl

theorem run?_skipEscape_short {e c : Char} (h : (e, c) ∈ shortEscapes) (cs : List Char)
    (s : List UInt8) : run? skipEscape (octets (e :: cs) ++ s) = some ((), octets cs ++ s) := by
  simp only [shortEscapes, List.mem_cons, Prod.mk.injEq, List.not_mem_nil, or_false] at h
  rcases h with ⟨rfl, rfl⟩ | ⟨rfl, rfl⟩ | ⟨rfl, rfl⟩ | ⟨rfl, rfl⟩ | ⟨rfl, rfl⟩ | ⟨rfl, rfl⟩ |
    ⟨rfl, rfl⟩ | ⟨rfl, rfl⟩ <;> rfl

theorem run?_escape_code (cs : List Char) (s : List UInt8) :
    run? escape (octets ('u' :: cs) ++ s) = run? codeEscape (octets cs ++ s) := rfl

theorem run?_skipEscape_code {digits : List Char} {n : Nat} (h : IsCode digits n) (cs : List Char)
    (s : List UInt8) :
    run? skipEscape (octets ('u' :: (digits ++ cs)) ++ s) = some ((), octets cs ++ s) := by
  have hhex : run? skipEscape (octets ('u' :: (digits ++ cs)) ++ s) =
      run? (discard fourHex) (octets (digits ++ cs) ++ s) := rfl
  rw [hhex, octets_append, List.append_assoc, run?_discard, run?_fourHex h]
  rfl

theorem run?_codeEscape {digits : List Char} {n : Nat} (h : IsCode digits n)
    (hsurrogate : ¬ (0xd800 ≤ n ∧ n ≤ 0xdfff)) (s : List UInt8) :
    run? codeEscape (octets digits ++ s) = some (Char.ofNat n, s) := by
  rw [codeEscape, run?_bind, run?_fourHex h, Option.bind_some]
  dsimp only
  rw [if_neg (by omega), if_neg (by omega)]
  rfl

theorem run?_codeEscape_pair {high low : List Char} {n m : Nat} (hhigh : IsCode high n)
    (hn : 0xd800 ≤ n ∧ n ≤ 0xdbff) (hlow : IsCode low m) (hm : 0xdc00 ≤ m ∧ m ≤ 0xdfff)
    (s : List UInt8) :
    run? codeEscape (octets (high ++ '\\' :: 'u' :: low) ++ s) =
      some (Char.ofNat (0x10000 + (n - 0xd800) * 0x400 + (m - 0xdc00)), s) := by
  have hmark (c : Char) (hc : c.toNat < 128) (cs : List Char) :
      run? (pairMark c) (octets (c :: cs) ++ s) = some (PUnit.unit, octets cs ++ s) := by
    rw [pairMark, run?_bind, run?_peek_ascii cs s hc, Option.bind_some]
    dsimp only
    rw [if_pos rfl, run?_advance_ascii cs s hc]
  rw [octets_append, List.append_assoc, codeEscape, run?_bind, run?_fourHex hhigh, Option.bind_some]
  dsimp only
  rw [if_neg (by omega), if_pos hn, run?_bind, hmark '\\' (by decide), Option.bind_some, run?_bind,
    hmark 'u' (by decide), Option.bind_some, run?_bind, run?_fourHex hlow, Option.bind_some]
  dsimp only
  rw [if_pos hm]
  rfl

/-! ## Characters as they are -/

/-- An octet that stands for itself between quotes. -/
def IsPlain (b : UInt8) : Prop := b ≠ 0x22 ∧ b ≠ 0x5c ∧ ¬ b < 0x20

theorem isPlain_of_toNat {b : UInt8} (hquote : b.toNat ≠ 0x22) (hslash : b.toNat ≠ 0x5c)
    (hcontrol : 0x20 ≤ b.toNat) : IsPlain b := by
  refine ⟨?_, ?_, ?_⟩
  · rintro rfl
    exact hquote rfl
  · rintro rfl
    exact hslash rfl
  · rw [UInt8.lt_iff_toNat_lt]
    exact Nat.not_lt.mpr hcontrol

theorem isPlain_octet {c : Char} (hquote : c ≠ '"') (hslash : c ≠ '\\') (hcontrol : 0x20 ≤ c.toNat) :
    ∀ b ∈ String.utf8EncodeChar c, IsPlain b := by
  have hquote : c.toNat ≠ 0x22 := fun h => hquote (Char.toNat_inj.mp h)
  have hslash : c.toNat ≠ 0x5c := fun h => hslash (Char.toNat_inj.mp h)
  intro b hb
  by_cases hascii : c.toNat < 128
  · rw [utf8EncodeChar_of_ascii hascii, List.mem_singleton] at hb
    have hb : b.toNat = c.toNat := by
      rw [hb, UInt8.toNat_ofNat']
      exact Nat.mod_eq_of_lt (by omega)
    exact isPlain_of_toNat (by omega) (by omega) (by omega)
  · -- Every octet of a longer encoding has its first bit set.
    have hfirst : 0x80 ≤ b.toNat := by
      have hle : ¬ c.val.toNat ≤ 127 := by
        change ¬ c.toNat ≤ 127
        omega
      simp only [String.utf8EncodeChar, if_neg hle] at hb
      split_ifs at hb
      all_goals simp only [List.mem_cons, List.not_mem_nil, or_false] at hb
      · rcases hb with rfl | rfl <;> rw [UInt8.toNat_ofNat'] <;> omega
      · rcases hb with rfl | rfl | rfl <;> rw [UInt8.toNat_ofNat'] <;> omega
      · rcases hb with rfl | rfl | rfl | rfl <;> rw [UInt8.toNat_ofNat'] <;> omega
    exact isPlain_of_toNat (by omega) (by omega) (by omega)

theorem run?_stringLoop_plain {bs : List UInt8} (h : ∀ b ∈ bs, IsPlain b) (n : Nat)
    (s : List UInt8) :
    run? (stringLoop (n + bs.length)) (bs ++ s) =
      (run? (stringLoop n) s).map fun p => (bs ++ p.1, p.2) := by
  induction bs with
  | nil =>
    change run? (stringLoop n) s = _
    cases run? (stringLoop n) s <;> rfl
  | cons b bs ih =>
    have hbs := ih fun d hd => h d (List.mem_cons_of_mem b hd)
    obtain ⟨hquote, hslash, hcontrol⟩ := h b List.mem_cons_self
    rw [List.length_cons, ← Nat.add_assoc, stringLoop, run?_bind, run?_get, Option.bind_some]
    simp only [List.cons_append, if_neg hquote, if_neg hslash, if_neg hcontrol, run?_bind,
      run?_set, Option.bind_some, hbs]
    cases run? (stringLoop n) s <;> rfl

/-! ## Whole strings -/

theorem run?_stringLoop_escape (n : Nat) (cs : List Char) (s : List UInt8) :
    run? (stringLoop (n + 1)) (octets ('\\' :: cs) ++ s) =
      (run? escape (octets cs ++ s)).bind fun p =>
        (run? (stringLoop n) p.2).map fun q => (String.utf8EncodeChar p.1 ++ q.1, q.2) := by
  have hstep : run? (stringLoop (n + 1)) (octets ('\\' :: cs) ++ s) = run? (do
      let c ← escape
      return String.utf8EncodeChar c ++ (← stringLoop n)) (octets cs ++ s) := rfl
  rw [hstep, run?_bind]
  congr 1
  funext p
  rw [run?_bind]
  cases run? (stringLoop n) p.2 <;> rfl

/-- A string is read up to its closing quote. -/
theorem run?_stringLoop {body text : List Char} (h : Spells body text) {n : Nat}
    (hn : (octets body).length < n) (s : List UInt8) :
    run? (stringLoop n) (octets body ++ (octets ['"'] ++ s)) = some (octets text, s) := by
  induction h generalizing n with
  | nil =>
    obtain ⟨n, rfl⟩ := Nat.exists_eq_add_one_of_ne_zero (Nat.ne_zero_of_lt hn)
    rfl
  | @plain c cs text hquote hslash hcontrol h ih =>
    rw [octets_cons, List.length_append] at hn
    obtain ⟨k, rfl⟩ : ∃ k, n = k + (String.utf8EncodeChar c).length :=
      ⟨n - (String.utf8EncodeChar c).length, by omega⟩
    rw [octets_cons, List.append_assoc, run?_stringLoop_plain (isPlain_octet hquote hslash hcontrol),
      ih (by omega)]
    rfl
  | @short e c cs text hescape h ih =>
    simp only [octets_cons '\\', octets_cons e, List.length_append] at hn
    obtain ⟨n, rfl⟩ := Nat.exists_eq_add_one_of_ne_zero (Nat.ne_zero_of_lt hn)
    have hslash : (String.utf8EncodeChar '\\').length = 1 := rfl
    rw [run?_stringLoop_escape, run?_escape_short hescape, Option.bind_some, ih (by omega)]
    rfl
  | @code digits cs text _ hcode hsurrogate h ih =>
    simp only [octets_cons '\\', octets_cons 'u', octets_append, List.length_append] at hn
    obtain ⟨n, rfl⟩ := Nat.exists_eq_add_one_of_ne_zero (Nat.ne_zero_of_lt hn)
    have hslash : (String.utf8EncodeChar '\\').length = 1 := rfl
    rw [run?_stringLoop_escape, run?_escape_code, octets_append, List.append_assoc,
      run?_codeEscape hcode hsurrogate, Option.bind_some, ih (by omega)]
    rfl
  | @pair high low cs text i j hhigh hi hlow hj h ih =>
    simp only [octets_cons '\\', octets_cons 'u', octets_append, List.length_append] at hn
    obtain ⟨n, rfl⟩ := Nat.exists_eq_add_one_of_ne_zero (Nat.ne_zero_of_lt hn)
    have hslash : (String.utf8EncodeChar '\\').length = 1 := rfl
    have hsplit : high ++ '\\' :: 'u' :: (low ++ cs) = (high ++ '\\' :: 'u' :: low) ++ cs := by
      rw [List.append_assoc, List.cons_append, List.cons_append]
    rw [run?_stringLoop_escape, run?_escape_code, hsplit, octets_append, List.append_assoc,
      run?_codeEscape_pair hhigh hi hlow hj, Option.bind_some, ih (by omega)]
    generalize Char.ofNat (0x10000 + (i - 0xd800) * 0x400 + (j - 0xdc00)) = c
    rfl

theorem run?_skipStringLoop_plain {bs : List UInt8} (h : ∀ b ∈ bs, IsPlain b) (n : Nat)
    (s : List UInt8) :
    run? (skipStringLoop (n + bs.length)) (bs ++ s) = run? (skipStringLoop n) s := by
  induction bs with
  | nil => rfl
  | cons b bs ih =>
    obtain ⟨hquote, hslash, hcontrol⟩ := h b List.mem_cons_self
    rw [List.length_cons, ← Nat.add_assoc, skipStringLoop, run?_bind, run?_get, Option.bind_some]
    simp only [List.cons_append, if_neg hquote, if_neg hslash, if_neg hcontrol, run?_bind, run?_set,
      Option.bind_some]
    exact ih fun d hd => h d (List.mem_cons_of_mem b hd)

theorem run?_skipStringLoop_escape (n : Nat) (cs : List Char) (s : List UInt8) :
    run? (skipStringLoop (n + 1)) (octets ('\\' :: cs) ++ s) =
      (run? skipEscape (octets cs ++ s)).bind fun p => run? (skipStringLoop n) p.2 :=
  run?_bind skipEscape (fun _ => skipStringLoop n) _

/-- A string is passed over up to its closing quote. The two codes of a surrogate pair count as two
escapes. -/
theorem run?_skipStringLoop {body text : List Char} (h : Spells body text) {n : Nat}
    (hn : (octets body).length < n) (s : List UInt8) :
    run? (skipStringLoop n) (octets body ++ (octets ['"'] ++ s)) = some ((), s) := by
  induction h generalizing n with
  | nil =>
    obtain ⟨n, rfl⟩ := Nat.exists_eq_add_one_of_ne_zero (Nat.ne_zero_of_lt hn)
    rfl
  | @plain c cs text hquote hslash hcontrol h ih =>
    rw [octets_cons, List.length_append] at hn
    obtain ⟨k, rfl⟩ : ∃ k, n = k + (String.utf8EncodeChar c).length :=
      ⟨n - (String.utf8EncodeChar c).length, by omega⟩
    rw [octets_cons, List.append_assoc,
      run?_skipStringLoop_plain (isPlain_octet hquote hslash hcontrol)]
    exact ih (by omega)
  | @short e c cs text hescape h ih =>
    simp only [octets_cons '\\', octets_cons e, List.length_append] at hn
    obtain ⟨n, rfl⟩ := Nat.exists_eq_add_one_of_ne_zero (Nat.ne_zero_of_lt hn)
    have hslash : (String.utf8EncodeChar '\\').length = 1 := rfl
    rw [run?_skipStringLoop_escape, run?_skipEscape_short hescape]
    exact ih (by omega)
  | @code digits cs text _ hcode _ h ih =>
    simp only [octets_cons '\\', octets_cons 'u', octets_append, List.length_append] at hn
    obtain ⟨n, rfl⟩ := Nat.exists_eq_add_one_of_ne_zero (Nat.ne_zero_of_lt hn)
    have hslash : (String.utf8EncodeChar '\\').length = 1 := rfl
    rw [run?_skipStringLoop_escape, run?_skipEscape_code hcode]
    exact ih (by omega)
  | @pair high low cs text _ _ hhigh _ hlow _ h ih =>
    simp only [octets_cons '\\', octets_cons 'u', octets_append, List.length_append] at hn
    have hslash : (String.utf8EncodeChar '\\').length = 1 := rfl
    obtain ⟨n, rfl⟩ : ∃ k, n = k + 2 := ⟨n - 2, by omega⟩
    rw [run?_skipStringLoop_escape, run?_skipEscape_code hhigh, Option.bind_some,
      run?_skipStringLoop_escape, run?_skipEscape_code hlow]
    exact ih (by omega)

theorem decode?_octets (text : String) : decode? (octets text.toList) = some text := by
  have hbytes : (⟨(octets text.toList).toArray⟩ : ByteArray) = text.toByteArray := by
    rw [← String.utf8Encode_toList]
    apply ByteArray.ext
    rw [List.utf8Encode, List.data_toByteArray]
    rfl
  rw [decode?, hbytes, String.fromUTF8?, dif_pos text.isValidUTF8]
  rfl

/-- A string behind its opening quote. -/
theorem run?_string {body : List Char} {text : String} (h : Spells body text.toList)
    (s : List UInt8) : run? string (octets (body ++ ['"']) ++ s) = some (text, s) := by
  have hn : (octets body).length < (octets (body ++ ['"']) ++ s).length + 1 := by
    rw [octets_append, List.append_assoc, List.length_append]
    omega
  rw [string, run?_bind, run?_bounded, octets_append, List.append_assoc]
  rw [octets_append, List.append_assoc] at hn
  rw [run?_stringLoop h hn, Option.bind_some]
  dsimp only
  rw [decode?_octets]
  rfl

theorem reads_string {body : List Char} {text : String} (h : Spells body text.toList) :
    Reads string (body ++ ['"']) (some text) :=
  fun rest _ => run?_string h rest

theorem run?_skipString {body text : List Char} (h : Spells body text) (s : List UInt8) :
    run? skipString (octets (body ++ ['"']) ++ s) = some ((), s) := by
  have hn : (octets body).length < (octets body ++ (octets ['"'] ++ s)).length + 1 := by
    rw [List.length_append]
    omega
  rw [skipString, run?_bounded, octets_append, List.append_assoc, run?_skipStringLoop h hn]

theorem reads_skipString {body text : List Char} (h : Spells body text) :
    Reads skipString (body ++ ['"']) (some ()) :=
  fun rest _ => run?_skipString h rest

end Reader
end Json
end ScoreTree

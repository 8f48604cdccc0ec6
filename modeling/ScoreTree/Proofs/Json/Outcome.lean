import Mathlib.Tactic
import ScoreTree.Json.Skip

/-!
# Outcomes of readers

A text is read as octets. `Reader.run?` is what a reader gives and leaves, if it does not fail, with
one equation for each way to build a reader. `Reader.Reads` says what a reader makes of a text in
front of any rest. A number cannot tell its own end, so the rest must not continue one.
-/

namespace ScoreTree
namespace Json

/-! ## Octets of a text -/

/-- The octets of a text. -/
def octets (cs : List Char) : List UInt8 := cs.flatMap String.utf8EncodeChar

@[simp] theorem octets_nil : octets [] = [] := rfl

theorem octets_cons (c : Char) (cs : List Char) :
    octets (c :: cs) = String.utf8EncodeChar c ++ octets cs := rfl

theorem octets_append (cs ds : List Char) : octets (cs ++ ds) = octets cs ++ octets ds :=
  List.flatMap_append

theorem utf8EncodeChar_of_ascii {c : Char} (h : c.toNat < 128) :
    String.utf8EncodeChar c = [UInt8.ofNat c.toNat] := by
  have hle : c.val.toNat ≤ 127 := Nat.le_of_lt_succ h
  simp only [String.utf8EncodeChar, if_pos hle]
  rfl

theorem octets_cons_ascii {c : Char} (h : c.toNat < 128) (cs : List Char) :
    octets (c :: cs) = UInt8.ofNat c.toNat :: octets cs := by
  rw [octets_cons, utf8EncodeChar_of_ascii h, List.singleton_append]

theorem ofUInt8_of_ascii {c : Char} (h : c.toNat < 128) :
    Char.ofUInt8 (UInt8.ofNat c.toNat) = c := by
  rw [← Char.toNat_inj]
  change (UInt8.ofNat c.toNat).toUInt32.toNat = c.toNat
  rw [UInt8.toNat_toUInt32, UInt8.toNat_ofNat']
  exact Nat.mod_eq_of_lt (by omega)

theorem length_le_length_octets (cs : List Char) : cs.length ≤ (octets cs).length := by
  induction cs with
  | nil => exact Nat.le_refl 0
  | cons c cs ih =>
    have hpos : 0 < (String.utf8EncodeChar c).length :=
      List.length_pos_iff.mpr String.utf8EncodeChar_ne_nil
    rw [octets_cons, List.length_append, List.length_cons]
    omega

theorem toList_loop_eq (bytes : ByteArray) (i : Nat) (r : List UInt8) :
    ByteArray.toList.loop bytes i r = r.reverse ++ bytes.data.toList.drop i := by
  rw [ByteArray.toList.loop]
  split
  · rename_i hlt
    have hlt : i < bytes.data.toList.length := by simpa using hlt
    have hget : bytes.get! i = bytes.data.toList[i] := by
      simp only [ByteArray.get!, Array.getElem_toList]
      exact getElem!_pos bytes.data i (by simpa using hlt)
    rw [toList_loop_eq bytes (i + 1), List.drop_eq_getElem_cons hlt, hget]
    simp
  · rename_i hge
    have hge : bytes.data.toList.length ≤ i := by simpa using hge
    rw [List.drop_eq_nil_of_le hge, List.append_nil]
termination_by bytes.size - i

theorem octets_toList (text : String) : text.toUTF8.toList = octets text.toList := by
  have hdata : text.toUTF8.data.toList = octets text.toList := by
    rw [String.toUTF8, ← String.utf8Encode_toList, List.utf8Encode, List.data_toByteArray]
    rfl
  rw [ByteArray.toList, toList_loop_eq, ← hdata]
  simp

/-! ## Blanks -/

/-- Blanks between the parts of a text. -/
def IsBlanks (cs : List Char) : Prop :=
  ∀ c ∈ cs, c = ' ' ∨ c = '\t' ∨ c = '\n' ∨ c = '\r'

theorem isBlanks_nil : IsBlanks [] := by
  intro c hc
  cases hc

/-- A character that is written as one octet and is no blank. -/
def IsMark (c : Char) : Prop :=
  c.toNat < 128 ∧ Reader.isBlank (UInt8.ofNat c.toNat) = false

instance (c : Char) : Decidable (IsMark c) := inferInstanceAs (Decidable (_ ∧ _))

theorem dropWhile_blanks {blanks : List Char} (h : IsBlanks blanks) (s : List UInt8) :
    (octets blanks ++ s).dropWhile Reader.isBlank = s.dropWhile Reader.isBlank := by
  induction blanks with
  | nil => rfl
  | cons c cs ih =>
    have hcs : IsBlanks cs := fun d hd => h d (List.mem_cons_of_mem c hd)
    rcases h c List.mem_cons_self with rfl | rfl | rfl | rfl
    all_goals exact ih hcs

theorem dropWhile_mark {c : Char} (h : IsMark c) (cs : List Char) (s : List UInt8) :
    (octets (c :: cs) ++ s).dropWhile Reader.isBlank = octets (c :: cs) ++ s := by
  rw [octets_cons_ascii h.1, List.cons_append]
  exact List.dropWhile_cons_of_neg (by simp [h.2])

namespace Reader

variable {β γ : Type}

/-! ## What a reader gives and leaves -/

/-- The result of a reader and what it leaves, if it does not fail. -/
def run? (r : Reader β) (s : List UInt8) : Option (β × List UInt8) :=
  (StateT.run r s).toOption

@[simp] theorem run?_pure (x : β) (s : List UInt8) : run? (pure x) s = some (x, s) := rfl

@[simp] theorem run?_throw (e : ReadError) (s : List UInt8) : run? (throw e : Reader β) s = none :=
  rfl

@[simp] theorem run?_bind (r : Reader β) (f : β → Reader γ) (s : List UInt8) :
    run? (r >>= f) s = (run? r s).bind fun p => run? (f p.1) p.2 := by
  unfold run?
  rw [StateT.run_bind]
  cases StateT.run r s <;> rfl

@[simp] theorem run?_map (f : β → γ) (r : Reader β) (s : List UInt8) :
    run? (f <$> r) s = (run? r s).map fun p => (f p.1, p.2) := by
  unfold run?
  rw [StateT.run_map]
  cases StateT.run r s <;> rfl

@[simp] theorem run?_discard (r : Reader β) (s : List UInt8) :
    run? (discard r) s = (run? r s).map fun p => ((), p.2) :=
  run?_map _ r s

@[simp] theorem run?_get (s : List UInt8) : run? get s = some (s, s) := rfl

@[simp] theorem run?_set (t s : List UInt8) : run? (set t) s = some (PUnit.unit, t) := rfl

@[simp] theorem run?_ite (p : Prop) [Decidable p] (r r' : Reader β) (s : List UInt8) :
    run? (if p then r else r') s = if p then run? r s else run? r' s :=
  apply_ite (run? · s) p r r'

theorem run?_peek (s : List UInt8) : run? peek s = some (s.head?.map Char.ofUInt8, s) := rfl

theorem run?_advance (s : List UInt8) : run? advance s = some (PUnit.unit, s.tail) := rfl

theorem run?_token (s : List UInt8) :
    run? token s = some ((s.dropWhile isBlank).head?.map Char.ofUInt8, s.dropWhile isBlank) := rfl

theorem run?_accept (c : Char) (s : List UInt8) :
    run? (accept c) s =
      if s.head?.map Char.ofUInt8 = some c then some (true, s.tail) else some (false, s) := by
  simp only [accept, run?_bind, run?_peek, Option.bind_some, run?_ite, run?_advance, run?_pure]

@[simp] theorem run?_bounded (loop : Nat → Reader β) (s : List UInt8) :
    run? (bounded loop) s = run? (loop (s.length + 1)) s := by
  simp only [bounded, run?_bind, run?_get, Option.bind_some]

/-! ## Single characters -/

variable {c : Char} (cs : List Char) (s : List UInt8)

@[simp] theorem run?_peek_ascii (h : c.toNat < 128) :
    run? peek (octets (c :: cs) ++ s) = some (some c, octets (c :: cs) ++ s) := by
  rw [run?_peek, octets_cons_ascii h, List.cons_append, List.head?_cons, Option.map_some,
    ofUInt8_of_ascii h]

@[simp] theorem run?_advance_ascii (h : c.toNat < 128) :
    run? advance (octets (c :: cs) ++ s) = some (PUnit.unit, octets cs ++ s) := by
  rw [run?_advance, octets_cons_ascii h, List.cons_append, List.tail_cons]

@[simp] theorem run?_token_mark (h : IsMark c) :
    run? token (octets (c :: cs) ++ s) = some (some c, octets (c :: cs) ++ s) := by
  rw [run?_token, dropWhile_mark h, ← run?_peek, run?_peek_ascii cs s h.1]

/-- Blanks in front of a token are passed over. -/
theorem run?_token_blanks {blanks : List Char} (hblanks : IsBlanks blanks) (h : IsMark c) :
    run? token (octets (blanks ++ c :: cs) ++ s) = some (some c, octets (c :: cs) ++ s) := by
  rw [octets_append, List.append_assoc, run?_token, dropWhile_blanks hblanks, ← run?_token,
    run?_token_mark cs s h]

theorem run?_colon {blanks : List Char} (hblanks : IsBlanks blanks) :
    run? colon (octets (blanks ++ ':' :: cs) ++ s) = some (PUnit.unit, octets cs ++ s) := by
  rw [colon, run?_bind, run?_token_blanks cs s hblanks (by decide), Option.bind_some]
  exact run?_advance_ascii cs s (by decide)

theorem run?_dispatch {blanks : List Char} (hblanks : IsBlanks blanks) (h : IsMark c)
    (branch : Char → Reader β) :
    run? (dispatch branch) (octets (blanks ++ c :: cs) ++ s) =
      run? (branch c) (octets (c :: cs) ++ s) := by
  rw [dispatch, run?_bind, run?_token_blanks cs s hblanks h, Option.bind_some]

/-- A value of another form than wanted is refused, whatever it is. -/
theorem run?_mismatch (wanted : Wanted) (c : Char) (s : List UInt8) :
    run? (mismatch wanted c : Reader β) s = none := by
  unfold mismatch
  dsimp only
  split
  all_goals simp only [run?_bind, run?_pure, run?_throw, run?_ite, Option.bind_fun_none, ite_self]

/-! ## Texts in front of a rest -/

/-- The rest does not continue a number. -/
def EndsNumber (rest : List UInt8) : Prop :=
  ∀ b ∈ rest.head?, isDigit b = false ∧ Char.ofUInt8 b ∉ ['.', 'e', 'E']

theorem endsNumber_nil : EndsNumber [] := by
  intro b hb
  cases hb

theorem endsNumber_blanks {blanks : List Char} (hblanks : IsBlanks blanks) {rest : List UInt8}
    (hrest : EndsNumber rest) : EndsNumber (octets blanks ++ rest) := by
  cases blanks with
  | nil => exact hrest
  | cons c blanks =>
    intro b hb
    rcases hblanks c List.mem_cons_self with rfl | rfl | rfl | rfl
    all_goals
      cases hb
      decide

/-- What the reader makes of the text, in front of any rest. -/
def Reads (r : Reader β) (cs : List Char) (result : Option β) : Prop :=
  ∀ rest, EndsNumber rest → run? r (octets cs ++ rest) = result.map fun x => (x, rest)

theorem Reads.map {r : Reader β} {cs : List Char} {result : Option β} (h : Reads r cs result)
    (f : β → γ) : Reads (f <$> r) cs (result.map f) := by
  intro rest hrest
  rw [run?_map, h rest hrest, Option.map_map, Option.map_map]
  rfl

/-- A character is passed over first. -/
theorem Reads.behind {r : Reader β} {c : Char} {cs : List Char} {result : Option β}
    (h : Reads r cs result) (hc : c.toNat < 128) : Reads (do advance; r) (c :: cs) result := by
  intro rest hrest
  rw [run?_bind, run?_advance_ascii cs rest hc, Option.bind_some]
  exact h rest hrest

end Reader
end Json
end ScoreTree

import Gatehouse.Text.Utf8
import Mathlib.Tactic.Common

/-!
# Texts and their bytes

The bytes of a text are those of its characters, one after the other (`toList_toUTF8`).  A scan that
is not within a character reads the bytes of a character as that character (`scanFrom_char`), so a
text is read back from its bytes (`decode?_toUTF8`).
-/

namespace Gatehouse.Text

/-! ## Bytes of a character -/

theorem LeadByte.ofNat_ascii {c : Char} (h : c.toNat < 0x80) :
    LeadByte.ofNat c.toNat = .whole c := by
  rw [LeadByte.ofNat, if_pos h, Char.ofNat_toNat]

theorem LeadByte.ofNat_two (m : Nat) :
    LeadByte.ofNat (m % 32 + 0xC0) = .begins ⟨1, m % 32, 0x80⟩ := by
  rw [LeadByte.ofNat, if_neg (by omega), if_neg (by omega), if_pos (by omega),
    Nat.add_sub_cancel]

theorem LeadByte.ofNat_three (m : Nat) :
    LeadByte.ofNat (m % 16 + 0xE0) = .begins ⟨2, m % 16, 0x800⟩ := by
  rw [LeadByte.ofNat, if_neg (by omega), if_neg (by omega), if_neg (by omega),
    if_pos (by omega), Nat.add_sub_cancel]

theorem LeadByte.ofNat_four (m : Nat) :
    LeadByte.ofNat (m % 8 + 0xF0) = .begins ⟨3, m % 8, 0x10000⟩ := by
  rw [LeadByte.ofNat, if_neg (by omega), if_neg (by omega), if_neg (by omega),
    if_neg (by omega), if_pos (by omega), Nat.add_sub_cancel]

/-- A byte that starts a character of several bytes. -/
theorem scanFrom_lead {b : Nat} {p : PartialChar} (h : LeadByte.ofNat b = .begins p)
    (hb : b < 256) (r : List UInt8) :
    scanFrom none (UInt8.ofNat b :: r) = scanFrom (some p) r := by
  rw [scanFrom]
  simp only [UInt8.toNat_ofNat_of_lt' hb, h]

/-- A byte that continues a character has six bits of it. -/
theorem scanFrom_continuation (missing value least m : Nat) (r : List UInt8) :
    scanFrom (some ⟨missing + 1, value, least⟩) (UInt8.ofNat (m % 64 + 0x80) :: r) =
      if missing = 0 then
        PartialChar.finish ⟨0, value * 64 + m % 64, least⟩ :: scanFrom none r
      else scanFrom (some ⟨missing, value * 64 + m % 64, least⟩) r := by
  have hlt : m % 64 + 0x80 < 256 := by omega
  have hrange : 0x80 ≤ m % 64 + 0x80 ∧ m % 64 + 0x80 < 0xC0 := by omega
  rw [scanFrom]
  simp only [UInt8.toNat_ofNat_of_lt' hlt, if_pos hrange, Nat.add_sub_cancel]
  split
  · rename_i h
    rw [h]
  · rfl

theorem PartialChar.finish_eq (c : Char) {missing value least : Nat} (hvalue : value = c.toNat)
    (hleast : least ≤ c.toNat) : PartialChar.finish ⟨missing, value, least⟩ = some c := by
  subst hvalue
  have hvalid : c.toNat.isValidChar := c.valid
  rw [PartialChar.finish, if_pos ⟨hleast, hvalid⟩, Char.ofNat_toNat]

/-- The bytes of a character, by its code point. -/
theorem utf8EncodeChar_eq (c : Char) : String.utf8EncodeChar c =
    let v := c.toNat
    if v ≤ 0x7F then [.ofNat v]
    else if v ≤ 0x7FF then [.ofNat (v / 64 % 32 + 0xC0), .ofNat (v % 64 + 0x80)]
    else if v ≤ 0xFFFF then
      [.ofNat (v / 4096 % 16 + 0xE0), .ofNat (v / 64 % 64 + 0x80), .ofNat (v % 64 + 0x80)]
    else
      [.ofNat (v / 262144 % 8 + 0xF0), .ofNat (v / 4096 % 64 + 0x80),
        .ofNat (v / 64 % 64 + 0x80), .ofNat (v % 64 + 0x80)] := rfl

/-- The bytes of a character are read as that character, whatever follows. -/
theorem scanFrom_char (c : Char) (r : List UInt8) :
    scanFrom none (String.utf8EncodeChar c ++ r) = some c :: scanFrom none r := by
  have hvalid : c.toNat < 0xD800 ∨ 0xDFFF < c.toNat ∧ c.toNat < 0x110000 := c.valid
  rw [utf8EncodeChar_eq]
  dsimp only
  split
  · rw [List.singleton_append, scanFrom]
    simp only [UInt8.toNat_ofNat_of_lt' (show c.toNat < 256 by omega),
      LeadByte.ofNat_ascii (show c.toNat < 0x80 by omega)]
  split
  · simp only [List.cons_append, List.nil_append]
    rw [scanFrom_lead (LeadByte.ofNat_two _) (by omega), scanFrom_continuation, if_pos rfl,
      PartialChar.finish_eq c (by omega) (by omega)]
  split
  · simp only [List.cons_append, List.nil_append]
    rw [scanFrom_lead (LeadByte.ofNat_three _) (by omega), scanFrom_continuation,
      if_neg Nat.one_ne_zero, scanFrom_continuation, if_pos rfl,
      PartialChar.finish_eq c (by omega) (by omega)]
  · simp only [List.cons_append, List.nil_append]
    rw [scanFrom_lead (LeadByte.ofNat_four _) (by omega), scanFrom_continuation,
      if_neg (Nat.succ_ne_zero 1), scanFrom_continuation, if_neg Nat.one_ne_zero,
      scanFrom_continuation, if_pos rfl,
      PartialChar.finish_eq c (by omega) (by omega)]

/-! ## Bytes of a text -/

theorem scan_flatMap (cs : List Char) :
    scan (cs.flatMap String.utf8EncodeChar) = cs.map some := by
  unfold scan
  induction cs with
  | nil => rfl
  | cons c cs ih => rw [List.flatMap_cons, scanFrom_char, ih, List.map_cons]

theorem toList_loop (bs : ByteArray) (i : Nat) (r : List UInt8) :
    ByteArray.toList.loop bs i r = r.reverse ++ bs.data.toList.drop i := by
  fun_induction ByteArray.toList.loop bs i r with
  | case1 i r hi ih =>
    have hlt : i < bs.data.toList.length := hi
    have hget : bs.get! i = bs.data.toList[i] := by
      change bs.data[i]! = _
      rw [getElem!_pos bs.data i hi]
      simp
    rw [ih, hget, List.reverse_cons, List.append_assoc, List.singleton_append,
      List.getElem_cons_drop]
  | case2 i r hi =>
    have hle : bs.data.toList.length ≤ i := Nat.le_of_not_lt hi
    rw [List.drop_eq_nil_of_le hle, List.append_nil]

theorem toList_toUTF8 (s : String) :
    s.toUTF8.toList = s.toList.flatMap String.utf8EncodeChar := by
  have hbytes : s.toUTF8 = s.toList.utf8Encode := by
    simp
  rw [hbytes]
  unfold ByteArray.toList
  rw [toList_loop, List.utf8Encode]
  simp

/-- A text is read back from its bytes. -/
theorem decode?_toUTF8 (s : String) : decode? s.toUTF8.toList = some s.toList := by
  rw [decode?, toList_toUTF8, scan_flatMap, List.mapM_map]
  simpa using List.mapM_pure (m := Option) (l := s.toList) (f := id)

end Gatehouse.Text

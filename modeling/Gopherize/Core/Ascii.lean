import Mathlib.Data.List.Basic

/-! Strings through their bytes, as Go has them. The kernel evaluates the bytes of
a literal quickly, but decodes its characters slowly; for ASCII strings the
characters are the bytes. -/
namespace GoCore.Ascii

def bytes (s : String) : List Nat := s.toByteArray.data.toList.map UInt8.toNat

theorem bytes_injective : Function.Injective bytes := by
  intro s t same
  have lists := List.map_injective_iff.mpr (fun a b => UInt8.toNat_inj.mp) same
  exact String.toByteArray_inj.mp (ByteArray.ext (Array.toList_inj.mp lists))

theorem val_ofNat (ascii : b < 128) : (Char.ofNat b).val.toNat = b := by
  have valid : b.isValidChar := Or.inl (by omega)
  rw [Char.ofNat, dif_pos valid]
  rfl

theorem utf8EncodeChar_ofNat (ascii : b < 128) :
    (String.utf8EncodeChar (Char.ofNat b)).map UInt8.toNat = [b] := by
  have value := val_ofNat ascii
  have single : (Char.ofNat b).utf8Size = 1 := by
    rw [Char.utf8Size_eq_one_iff, UInt32.le_iff_toNat_le, value]
    exact Nat.le_of_lt_succ ascii
  rw [String.utf8EncodeChar_eq_singleton single, List.map_singleton, UInt32.toNat_toUInt8, value,
    Nat.mod_eq_of_lt (by omega)]

theorem bytes_ofList {bs : List Nat} (ascii : ∀ b ∈ bs, b < 128) :
    bytes (String.ofList (bs.map Char.ofNat)) = bs := by
  rw [bytes, String.toByteArray_ofList, List.utf8Encode, List.toList_data_toByteArray]
  induction bs with
  | nil => rfl
  | cons b bs ih =>
    have head := utf8EncodeChar_ofNat (ascii b List.mem_cons_self)
    have tail := ih (fun b member => ascii b (List.mem_cons_of_mem _ member))
    rw [List.map_cons, List.flatMap_cons, List.map_append, head, tail]
    rfl

/-- A string of ASCII bytes has these bytes as its characters. -/
theorem toList_of_ascii (ascii : ∀ b ∈ bytes s, b < 128) : s.toList = (bytes s).map Char.ofNat := by
  have same : String.ofList ((bytes s).map Char.ofNat) = s := bytes_injective (bytes_ofList ascii)
  calc
    s.toList = (String.ofList ((bytes s).map Char.ofNat)).toList := by rw [same]
    _ = (bytes s).map Char.ofNat := String.toList_ofList

end GoCore.Ascii

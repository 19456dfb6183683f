import SrWebSocket.Parse.FrameUnits

/-! # Frames of the wire format

A frame is written from its opcode, its FIN bit and a fragment: a payload, the
form in which its length is written, and the key that masks it, if any. The
decoder reads each such frame back, as long as the length is below 2^32.
-/
namespace SrWebSocket

inductive LenForm where
  | short
  | medium
  | long
deriving DecidableEq

namespace LenForm

def Fits : LenForm → ℕ → Prop
  | short, n => n < 126
  | medium, n => n < 2 ^ 16
  | long, n => n < 2 ^ 64

instance (form : LenForm) (n : ℕ) : Decidable (form.Fits n) := by
  cases form <;> exact inferInstanceAs (Decidable (_ < _))

def code : LenForm → ℕ → ℕ
  | short, n => n
  | medium, _ => 126
  | long, _ => 127

def extended : LenForm → ℕ → List UInt8
  | short, _ => []
  | medium, n => bigEndian 2 n
  | long, n => bigEndian 8 n

end LenForm

/-- What a frame carries besides its opcode and its FIN bit. -/
structure Fragment where
  form : LenForm
  key : Option (Fin 4 → UInt8)
  payload : List UInt8
  nonempty : payload ≠ []
  below : payload.length < 2 ^ 32
  fits : form.Fits payload.length

namespace Fragment

def keyBytes (f : Fragment) : List UInt8 :=
  match f.key with
  | none => []
  | some key => List.ofFn key

def masked (f : Fragment) : List UInt8 :=
  match f.key with
  | none => f.payload
  | some key => applyMask (fun i => key (Fin.ofNat 4 i)) f.payload

def lenByte (f : Fragment) : UInt8 :=
  let code := UInt8.ofNat (f.form.code f.payload.length)
  if f.key.isSome then 0x80 ||| code else code

theorem length_pos (f : Fragment) : 0 < f.payload.length := List.length_pos_iff.mpr f.nonempty

theorem code_cases (f : Fragment) :
    f.form = .short ∧ f.form.code f.payload.length = f.payload.length ∧ f.payload.length < 126 ∨
    f.form = .medium ∧ f.form.code f.payload.length = 126 ∧ f.payload.length < 2 ^ 16 ∨
    f.form = .long ∧ f.form.code f.payload.length = 127 := by
  have hfits := f.fits
  cases hform : f.form with
  | short => exact Or.inl ⟨rfl, rfl, by rwa [hform] at hfits⟩
  | medium => exact Or.inr (Or.inl ⟨rfl, rfl, by rwa [hform] at hfits⟩)
  | long => exact Or.inr (Or.inr ⟨rfl, rfl⟩)

theorem code_lt (f : Fragment) : f.form.code f.payload.length < 128 := by
  rcases f.code_cases with ⟨_, hc, _⟩ | ⟨_, hc, _⟩ | ⟨_, hc⟩ <;> omega

end Fragment

def opByte (fin : Bool) (op : UInt8) : UInt8 := if fin then 0x80 ||| op else op

def wireFrame (fin : Bool) (op : UInt8) (f : Fragment) : List UInt8 :=
  opByte fin op :: f.lenByte :: (f.form.extended f.payload.length ++ (f.keyBytes ++ f.masked))

variable {fin : Bool} {op : UInt8} (f : Fragment)

/-! ## The header of a written frame -/

theorem opByte_toNat (hop : op.toNat < 16) (fin : Bool) : (opByte fin op).toNat = (if fin then 128 else 0) + op.toNat := by
  unfold opByte
  cases fin with
  | true => exact toNat_80_or (by omega)
  | false => simp

theorem lenByte_toNat :
    f.lenByte.toNat = (if f.key.isSome then 128 else 0) + f.form.code f.payload.length := by
  have hcode := f.code_lt
  have hof : (UInt8.ofNat (f.form.code f.payload.length)).toNat = f.form.code f.payload.length := by
    rw [UInt8.toNat_ofNat']
    exact Nat.mod_eq_of_lt (by omega)
  unfold Fragment.lenByte
  dsimp only
  cases f.key.isSome with
  | true =>
    rw [if_pos rfl, if_pos rfl, toNat_80_or (by omega), hof]
  | false => simpa using hof

theorem lenCode_wireFrame (fin : Bool) (op : UInt8) :
    (bytesOf (wireFrame fin op f) 1 &&& 0x7f).toNat = f.form.code f.payload.length := by
  change (f.lenByte &&& 0x7f).toNat = _
  have hcode := f.code_lt
  rw [toNat_and_7f, lenByte_toNat]
  split <;> omega

theorem maskBit_wireFrame (fin : Bool) (op : UInt8) :
    bytesOf (wireFrame fin op f) 1 &&& 0x80 ≠ 0 ↔ f.key.isSome := by
  change f.lenByte &&& 0x80 ≠ 0 ↔ _
  have hcode := f.code_lt
  rw [and_80_ne_zero, lenByte_toNat]
  cases f.key.isSome with
  | true => simp
  | false => simpa using hcode

theorem headerLen_wireFrame (fin : Bool) (op : UInt8) :
    headerLen (bytesOf (wireFrame fin op f)) = 2 + (f.form.extended f.payload.length).length := by
  unfold headerLen
  rw [lenCode_wireFrame]
  rcases f.code_cases with ⟨hform, hc, hlt⟩ | ⟨hform, hc, _⟩ | ⟨hform, hc⟩
  · rw [hc, if_neg (by omega), if_neg (by omega), hform]
    rfl
  · rw [hc, hform]
    rfl
  · rw [hc, hform]
    rfl

theorem maskLen_wireFrame (fin : Bool) (op : UInt8) :
    maskLen (bytesOf (wireFrame fin op f)) = f.keyBytes.length := by
  unfold maskLen Fragment.keyBytes
  rw [if_congr (maskBit_wireFrame f fin op) rfl rfl]
  cases f.key <;> simp

theorem length_masked : f.masked.length = f.payload.length := by
  unfold Fragment.masked
  cases f.key <;> simp

theorem codedLen_wireFrame (fin : Bool) (op : UInt8) :
    codedLen (bytesOf (wireFrame fin op f)) = f.payload.length := by
  have hbelow := f.below
  unfold codedLen
  rw [lenCode_wireFrame]
  rcases f.code_cases with ⟨_, hc, hlt⟩ | ⟨hform, hc, hlt⟩ | ⟨hform, hc⟩
  · rw [hc, if_neg (by omega), if_neg (by omega)]
  · have hb : bytesOf (wireFrame fin op f) 2 = UInt8.ofNat (f.payload.length / 256) ∧
        bytesOf (wireFrame fin op f) 3 = UInt8.ofNat f.payload.length := by
      simp [wireFrame, hform, LenForm.extended, bigEndian, bytesOf, memory]
    rw [hc, if_pos rfl, ntohs, hb.1, hb.2, UInt8.toNat_ofNat', UInt8.toNat_ofNat']
    omega
  · have hb : bytesOf (wireFrame fin op f) 6 = UInt8.ofNat (f.payload.length / 256 ^ 3) ∧
        bytesOf (wireFrame fin op f) 7 = UInt8.ofNat (f.payload.length / 256 ^ 2) ∧
        bytesOf (wireFrame fin op f) 8 = UInt8.ofNat (f.payload.length / 256) ∧
        bytesOf (wireFrame fin op f) 9 = UInt8.ofNat f.payload.length := by
      simp [wireFrame, hform, LenForm.extended, bigEndian, bytesOf, memory]
    obtain ⟨h6, h7, h8, h9⟩ := hb
    rw [hc, if_neg (by decide), if_pos rfl, ntohl, h6, h7, h8, h9]
    simp only [UInt8.toNat_ofNat']
    omega

/-! ## A written frame is a unit -/

theorem length_wireFrame (fin : Bool) (op : UInt8) :
    (wireFrame fin op f).length =
      2 + (f.form.extended f.payload.length).length + f.keyBytes.length + f.payload.length := by
  simp only [wireFrame, List.length_cons, List.length_append, length_masked]
  omega

theorem length_wireFrame_le (fin : Bool) (op : UInt8) : (wireFrame fin op f).length ≤ 15 * f.payload.length := by
  have hpos := f.length_pos
  have hkey : f.keyBytes.length ≤ 4 := by
    unfold Fragment.keyBytes
    cases f.key <;> simp
  have hext : (f.form.extended f.payload.length).length ≤ 8 := by
    cases f.form <;> simp [LenForm.extended, bigEndian]
  rw [length_wireFrame]
  omega

theorem whole_wireFrame (fin : Bool) (op : UInt8) : frameUnits.Whole (wireFrame fin op f) := by
  rw [whole_iff, frameSize, headerLen_wireFrame, maskLen_wireFrame, codedLen_wireFrame, length_wireFrame]
  exact ⟨f.length_pos, rfl⟩

theorem opcode_wireFrame (hop : op.toNat < 16) (fin : Bool) : opcode (wireFrame fin op f) = op := by
  change opByte fin op &&& 0x0f = op
  rw [← UInt8.toNat_inj, toNat_and_0f, opByte_toNat hop]
  split <;> omega

theorem isFin_wireFrame (hop : op.toNat < 16) (fin : Bool) : isFin (wireFrame fin op f) = fin := by
  change decide (opByte fin op &&& 0x80 = 0x80) = fin
  have hbyte := opByte_toNat hop fin
  cases fin with
  | true => exact decide_eq_true ((and_80_eq _).mpr (by rw [hbyte, if_pos rfl]; omega))
  | false => exact decide_eq_false (mt (and_80_eq _).mp (by rw [hbyte, if_neg Bool.false_ne_true]; omega))

theorem key_wireFrame (fin : Bool) (op : UInt8) {i : ℕ} (hi : i < f.keyBytes.length) :
    bytesOf (wireFrame fin op f) (2 + (f.form.extended f.payload.length).length + i) = f.keyBytes.getD i 0 := by
  unfold wireFrame bytesOf memory
  rw [Nat.add_assoc, Nat.add_comm 2]
  simp only [List.getD_cons_succ]
  rw [List.getD_append_right _ _ _ _ (by omega), Nat.add_sub_cancel_left, List.getD_append _ _ _ _ hi]

theorem payload_wireFrame (fin : Bool) (op : UInt8) : payload (wireFrame fin op f) = f.payload := by
  have hraw : (wireFrame fin op f).drop (2 + (f.form.extended f.payload.length).length + f.keyBytes.length) = f.masked := by
    unfold wireFrame
    rw [Nat.add_assoc, Nat.add_comm 2, List.drop_succ_cons, List.drop_succ_cons, ← List.drop_drop,
      List.drop_left, List.drop_left]
  unfold payload
  dsimp only
  rw [headerLen_wireFrame, maskLen_wireFrame, hraw, if_congr (maskBit_wireFrame f fin op) rfl rfl]
  cases hkey : f.key with
  | none => simp [Fragment.masked, hkey]
  | some key =>
    have hbytes : f.keyBytes = List.ofFn key := by simp [Fragment.keyBytes, hkey]
    rw [if_pos Option.isSome_some, Fragment.masked, hkey]
    dsimp only
    refine (applyMask_congr ?_ _).trans (applyMask_applyMask _ _)
    intro i hi
    have hlt : i < f.keyBytes.length := by rw [hbytes, List.length_ofFn]; exact hi
    rw [key_wireFrame f fin op hlt, hbytes, List.getD_eq_getElem _ _ (by rw [List.length_ofFn]; exact hi),
      List.getElem_ofFn]
    congr 1
    exact Fin.ext (Nat.mod_eq_of_lt hi).symm

end SrWebSocket

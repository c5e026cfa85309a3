import Ia32Backend.Proofs.LiveSlots
import Ia32Backend.Proofs.Machine.Memory

/-!
Addresses near the stack and frame pointers. A slot lies a known distance below the frame pointer,
inside the reserved bytes; arguments lie above it.
-/
namespace Ia32Backend

theorem toNat_sub_ofNat {base : Word} {d : Nat} (room : d ≤ base.toNat) :
    (base - BitVec.ofNat 32 d).toNat = base.toNat - d := by
  have bound := base.isLt
  simp only [BitVec.toNat_sub, BitVec.toNat_ofNat]
  omega

theorem toNat_add_ofNat {base : Word} {d : Nat} (fits : base.toNat + d < 2 ^ 32) :
    (base + BitVec.ofNat 32 d).toNat = base.toNat + d := by
  rw [BitVec.toNat_add, BitVec.toNat_ofNat]
  omega

/-- An address above a stack pointer, told from a stack pointer further down. -/
theorem add_ofNat_of_lower {low high : Word} {n : Nat} (lower : low.toNat + n = high.toNat)
    (d : Nat) : low + BitVec.ofNat 32 (n + d) = high + BitVec.ofNat 32 d := by
  apply BitVec.eq_of_toNat_eq
  simp only [BitVec.toNat_add, BitVec.toNat_ofNat]
  omega

theorem add_neg_disp (base : Word) (d : Nat) :
    base + (Int32.ofInt (-(d : Int))).toBitVec = base - BitVec.ofNat 32 d := by
  rw [Int32.toBitVec_ofInt, BitVec.ofInt_neg, ← BitVec.sub_eq_add_neg]
  rfl

theorem Env.place_depth {env : Env} {v : VarId} {p : Place} (ok : env.place v = .ok p) :
    ∃ d, env.frames.depthOf env.symbols v = some d ∧
      p.operand = .frame (Int32.ofInt (-(d : Int))) := by
  obtain ⟨s, offset, found, slot, rfl⟩ := Env.place_ok ok
  obtain ⟨d, depth, rfl⟩ := Frames.depth?_of_offset? slot
  exact ⟨d, Frames.depthOf_eq_some.mpr ⟨s.block, owner_of_variableAt found, depth⟩, rfl⟩

/-- A laid variable's operand: so many bytes below the frame pointer, inside the limit. -/
theorem place_of_laid {env : Env} {limit : Nat} {scope : List VarId} {v : VarId} {p : Place}
    (laid : Layout.Laid env.symbols env.frames limit scope) (known : v ∈ scope)
    (ok : env.place v = .ok p) :
    ∃ d, env.frames.depthOf env.symbols v = some d ∧ 4 ≤ d ∧ d ≤ limit ∧
      p.operand = .frame (Int32.ofInt (-(d : Int))) := by
  obtain ⟨d, depth, operand⟩ := Env.place_depth ok
  obtain ⟨e, slot, low, high, _⟩ := laid.placed v known
  cases depth.symm.trans slot
  exact ⟨d, depth, low, high, operand⟩

end Ia32Backend

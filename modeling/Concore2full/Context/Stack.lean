import Mathlib.Data.Nat.Bitwise
import Mathlib.Data.UInt
import Mathlib.Tactic.Positivity

/-! The layout `allocate_stack` gives a stack made for a stackful coroutine (`callcc.h`): the
control structure `stack_control_structure<S, F>` is placed at `(sp - sizeof(control_t)) & ~align`,
and the usable stack is `[stack_begin(), stack_end())`, `stack_end()` 64 bytes below the control
structure. Addresses are `uintptr_t`, 64-bit words. The mask `~align` clears the one bit `align` of
`sp - sizeof(control_t)`; the lemmas below compute what that leaves: an address at most `align`
below `sp - sizeof(control_t)` with the same residue modulo `align`. -/

namespace Concore2full.Context

/-- `stack_t`: the highest address `sp` of the memory of a stack, and its size. -/
structure Stack where
  sp : UInt64
  size : UInt64
  deriving DecidableEq, Repr

/-- `allocate_stack`: the address of the control structure of `size` bytes and alignment `align`
on `stack`. -/
def allocateStack (stack : Stack) (size align : UInt64) : UInt64 :=
  (stack.sp - size) &&& ~~~align

/-- `stack_control_structure::stack_end` of the control structure at `control`. -/
def stackEnd (control : UInt64) : UInt64 := control - 64

/-- `stack_control_structure::stack_begin` -/
def stackBegin (stack : Stack) : UInt64 := stack.sp - stack.size

/-- `stack_control_structure::useful_size` -/
def usefulSize (stack : Stack) (control : UInt64) : UInt64 := stackEnd control - stackBegin stack

theorem toNat_land (a b : UInt64) : (a &&& b).toNat = a.toNat &&& b.toNat := BitVec.toNat_and _ _

theorem toNat_complement (a : UInt64) : (~~~a).toNat = 2 ^ 64 - 1 - a.toNat := BitVec.toNat_not

/-- Masking a 64-bit number with `~2^k` clears its bit `k`. -/
theorem land_complement_two_pow {y k : Nat} (hy : y < 2 ^ 64) (hk : k < 64) :
    y &&& (2 ^ 64 - 1 - 2 ^ k) = 2 ^ (k + 1) * (y / 2 ^ (k + 1)) + y % 2 ^ k := by
  apply Nat.eq_of_testBit_eq
  intro i
  have hm : 2 ^ 64 - 1 - 2 ^ k = 2 ^ 64 - (2 ^ k + 1) := by omega
  rw [hm, Nat.testBit_and, Nat.testBit_two_pow_sub_succ (Nat.pow_lt_pow_right (by norm_num) hk),
    Nat.testBit_mul_pow_two_add _ (lt_of_lt_of_le (Nat.mod_lt _ (by positivity))
      (Nat.pow_le_pow_right (by norm_num) (Nat.le_succ k))), Nat.testBit_two_pow]
  by_cases h1 : i < k + 1
  · by_cases h2 : i = k
    · subst h2; simp
    · simp [h1, show i < k by omega, Ne.symm h2, show i < 64 by omega]
  · simp only [h1, if_false, Nat.testBit_mod_two_pow]
    rw [← Nat.shiftRight_eq_div_pow, Nat.testBit_shiftRight,
      show k + 1 + (i - (k + 1)) = i by omega]
    by_cases h3 : i < 64
    · simp [h3, show k ≠ i by omega]
    · simp [h3, Nat.testBit_lt_two_pow
        (lt_of_lt_of_le hy (Nat.pow_le_pow_right (by norm_num) (show 64 ≤ i by omega)))]

section Layout

variable (stack : Stack) {size align : UInt64} {k : Nat} (ha : align.toNat = 2 ^ k) (hk : k < 64)
  (hs : size.toNat ≤ stack.sp.toNat)
include ha hk hs

/-- The control structure's address, with `y = sp - sizeof(control_t)`: bit `k` of `y` cleared. -/
theorem allocateStack_toNat :
    (allocateStack stack size align).toNat =
      2 ^ (k + 1) * ((stack.sp.toNat - size.toNat) / 2 ^ (k + 1)) +
        (stack.sp.toNat - size.toNat) % 2 ^ k := by
  have hy : stack.sp.toNat - size.toNat < 2 ^ 64 := by
    have := stack.sp.toBitVec.isLt; simp only [UInt64.toNat] at hs ⊢; omega
  rw [allocateStack, toNat_land, toNat_complement, ha,
    UInt64.toNat_sub_of_le _ _ hs, land_complement_two_pow hy hk]

/-- The mask keeps the residue of `sp - sizeof(control_t)` modulo the alignment. -/
theorem allocateStack_mod :
    (allocateStack stack size align).toNat % 2 ^ k = (stack.sp.toNat - size.toNat) % 2 ^ k := by
  rw [allocateStack_toNat stack ha hk hs, pow_succ, mul_assoc, Nat.mul_add_mod, Nat.mod_mod]

/-- The control structure starts at most `align` bytes below `sp - sizeof(control_t)`. -/
theorem allocateStack_bounds :
    stack.sp.toNat - size.toNat ≤ (allocateStack stack size align).toNat + 2 ^ k ∧
      (allocateStack stack size align).toNat ≤ stack.sp.toNat - size.toNat := by
  have hsplit := Nat.div_add_mod (stack.sp.toNat - size.toNat) (2 ^ (k + 1))
  have hsucc := Nat.mod_pow_succ (x := stack.sp.toNat - size.toNat) (b := 2) (k := k)
  have hbit := Nat.mod_lt ((stack.sp.toNat - size.toNat) / 2 ^ k) (show 0 < 2 by norm_num)
  have hC : 2 ^ k * ((stack.sp.toNat - size.toNat) / 2 ^ k % 2) ≤ 2 ^ k := by
    simpa using Nat.mul_le_mul_left (2 ^ k) (show _ ≤ 1 by omega)
  rw [allocateStack_toNat stack ha hk hs]
  omega

end Layout

/-- For a control structure whose alignment divides the 16 bytes every stack is aligned to, the
layout is the intended one: the control structure is aligned and fits below `sp`, and with
`size ≥ sizeof(control_t) + align + 64` the region `[stack_begin(), stack_end())` handed to
`make_fcontext` is computed without wrap-around, lies in `[sp - size, sp)`, and ends 64 bytes below
the control structure. -/
theorem allocateStack_layout (stack : Stack) (size align : UInt64) (k : Nat)
    (ha : align.toNat = 2 ^ k) (hk16 : k ≤ 4) (hsp : 16 ∣ stack.sp.toNat)
    (hsize : 2 ^ k ∣ size.toNat) (hroom : size.toNat + 2 ^ k + 64 ≤ stack.size.toNat)
    (hbelow : stack.size.toNat ≤ stack.sp.toNat) :
    (allocateStack stack size align).toNat % 2 ^ k = 0 ∧
      (allocateStack stack size align).toNat + size.toNat ≤ stack.sp.toNat ∧
      stack.sp.toNat ≤ (allocateStack stack size align).toNat + size.toNat + 2 ^ k ∧
      (stackBegin stack).toNat = stack.sp.toNat - stack.size.toNat ∧
      (stackEnd (allocateStack stack size align)).toNat + 64 =
        (allocateStack stack size align).toNat ∧
      (stackBegin stack).toNat ≤ (stackEnd (allocateStack stack size align)).toNat ∧
      (usefulSize stack (allocateStack stack size align)).toNat =
        (stackEnd (allocateStack stack size align)).toNat - (stackBegin stack).toNat := by
  have hk : k < 64 := by omega
  have hs : size.toNat ≤ stack.sp.toNat := by omega
  have hk16' : 2 ^ k ∣ 16 := (Nat.pow_dvd_pow 2 hk16).trans (by norm_num)
  generalize hp : allocateStack stack size align = p
  have hmod : p.toNat % 2 ^ k = 0 := by
    rw [← hp, allocateStack_mod stack ha hk hs]
    exact Nat.mod_eq_zero_of_dvd (Nat.dvd_sub' (hk16'.trans hsp) hsize)
  obtain ⟨hlo, hhi⟩ := hp ▸ allocateStack_bounds stack ha hk hs
  have hbegin : (stackBegin stack).toNat = stack.sp.toNat - stack.size.toNat :=
    UInt64.toNat_sub_of_le _ _ hbelow
  have hend : (stackEnd p).toNat = p.toNat - 64 :=
    UInt64.toNat_sub_of_le _ _ (show (64 : UInt64).toNat ≤ p.toNat from
      (show (64 : UInt64).toNat = 64 from rfl) ▸ by omega)
  refine ⟨hmod, by omega, by omega, hbegin, by omega, by omega, ?_⟩
  exact UInt64.toNat_sub_of_le _ _ (show (stackBegin stack).toNat ≤ (stackEnd p).toNat by omega)

/-- The layout theorem applies: a 64 KiB stack at `2^16` with a 16-byte control structure. -/
theorem allocateStack_layout_example :
    (16 : UInt64).toNat = 2 ^ 4 ∧ 4 ≤ 4 ∧ 16 ∣ (65536 : UInt64).toNat ∧
      2 ^ 4 ∣ (16 : UInt64).toNat ∧
      (16 : UInt64).toNat + 2 ^ 4 + 64 ≤ (65536 : UInt64).toNat ∧
      (65536 : UInt64).toNat ≤ (65536 : UInt64).toNat ∧
      (allocateStack ⟨65536, 65536⟩ 16 16).toNat % 2 ^ 4 = 0 :=
  have h := allocateStack_layout ⟨65536, 65536⟩ 16 16 4 rfl le_rfl (by decide) (by decide)
    (by decide) le_rfl
  ⟨rfl, le_rfl, by decide, by decide, by decide, le_rfl, h.1⟩

/-- With a control structure of 64 bytes aligned on 32 (its `stack_t` and a callable with an
`alignas(32)` capture) on a stack whose top `0x10010` is 16-byte but not 32-byte aligned,
`allocate_stack` places the control structure at `0xffd0`, which is not a multiple of 32. -/
theorem allocateStack_misaligned :
    allocateStack ⟨0x10010, 0x10000⟩ 64 32 = 0xffd0 ∧ (0xffd0 : UInt64).toNat % 32 = 16 := by
  decide

end Concore2full.Context

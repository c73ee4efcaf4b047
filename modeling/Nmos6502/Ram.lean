import Nmos6502.Ram.Cells

/-!
# Random access memory

A memory holds one byte for each word.  To everything outside this file it is the
function `Ram.get`: two memories with the same cells are equal (`Ram.ext`), and a
write changes its own cell and no other (`Ram.get_set`).
-/

set_option autoImplicit false

namespace Nmos6502

structure Ram where
  cells : Cells 16
  deriving DecidableEq

namespace Ram

def zero : Ram := ⟨Cells.fill 0 16⟩

def get (ram : Ram) (address : Word) : Byte := ram.cells.get address.toNat

def set (ram : Ram) (address : Word) (value : Byte) : Ram :=
  ⟨ram.cells.set address.toNat value⟩

@[simp] theorem get_zero (address : Word) : zero.get address = 0 := Cells.get_fill 0 16 _

theorem get_set (ram : Ram) (address other : Word) (value : Byte) :
    (ram.set address value).get other = if other = address then value else ram.get other := by
  rw [get, set, Cells.get_set ram.cells value address.isLt other.isLt, get]
  simp only [BitVec.toNat_inj]

@[simp] theorem get_set_self (ram : Ram) (address : Word) (value : Byte) :
    (ram.set address value).get address = value := by
  rw [get_set, if_pos rfl]

theorem get_set_of_ne (ram : Ram) {address other : Word} (value : Byte)
    (different : other ≠ address) : (ram.set address value).get other = ram.get other := by
  rw [get_set, if_neg different]

theorem ext {first second : Ram} (agree : ∀ address, first.get address = second.get address) :
    first = second := by
  have same : first.cells = second.cells := by
    refine Cells.ext fun address below => ?_
    have both := agree (BitVec.ofNat 16 address)
    have named : (BitVec.ofNat 16 address).toNat = address := Nat.mod_eq_of_lt below
    rwa [get, get, named] at both
  cases first
  cases second
  exact congrArg Ram.mk same

def store (ram : Ram) (start : Word) : List Byte → Ram
  | [] => ram
  | value :: rest => (ram.set start value).store (start + 1) rest

theorem get_store {ram : Ram} {image : List Byte} (fits : image.length ≤ 0x10000)
    (start address : Word) :
    (ram.store start image).get address =
      image[(address - start).toNat]?.getD (ram.get address) := by
  induction image generalizing ram start with
  | nil => rfl
  | cons value rest inductionHypothesis =>
      rw [List.length_cons] at fits
      rw [store, inductionHypothesis (by omega), get_set]
      by_cases same : address = start
      · have last : (address - (start + 1)).toNat = 0xFFFF := by bv_omega
        rw [last, List.getElem?_eq_none (by omega), if_pos same, same, BitVec.sub_self]
        rfl
      · have next : (address - start).toNat = (address - (start + 1)).toNat + 1 := by bv_omega
        rw [next, if_neg same, List.getElem?_cons_succ]

/-- The cells in which a memory differs from an older one, in ascending order of
their addresses, with their new values. -/
def changes (old new : Ram) : List (Word × Byte) :=
  (Cells.changes old.cells new.cells 0 []).map fun (address, value) =>
    (BitVec.ofNat 16 address, value)

theorem mem_changes (old new : Ram) (address : Word) (value : Byte) :
    (address, value) ∈ changes old new ↔
      old.get address ≠ new.get address ∧ value = new.get address := by
  simp only [changes, List.mem_map, Prod.exists, Cells.mem_changes, List.not_mem_nil,
    false_or, Nat.zero_add, Prod.mk.injEq]
  constructor
  · rintro ⟨cell, _, ⟨_, below, differs, rfl, rfl⟩, rfl, rfl⟩
    have named : (BitVec.ofNat 16 cell).toNat = cell := Nat.mod_eq_of_lt below
    rw [get, get, named]
    exact ⟨differs, rfl⟩
  · rintro ⟨differs, rfl⟩
    exact ⟨address.toNat, new.get address,
      ⟨address.toNat, address.isLt, differs, rfl, rfl⟩, by simp, rfl⟩

end Ram

end Nmos6502

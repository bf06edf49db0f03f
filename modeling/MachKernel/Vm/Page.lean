import MachKernel.Lib.Word32

namespace MachKernel.Vm
open Word32

/-- `page_size`: a power of two, constant once `vm_set_page_size` has run. -/
class PageSize where
  pageShift : ℕ
  pageShift_lt : pageShift < 32

/-- Pages of 4096 bytes. -/
@[reducible] def pages4096 : PageSize := ⟨12, by norm_num⟩

variable [PageSize]

def pageSize : ℕ := 2 ^ PageSize.pageShift

def pageMask : ℕ := pageSize - 1

def truncPage (x : ℕ) : ℕ := x &&& Word32.not pageMask

def roundPage (x : ℕ) : ℕ := truncPage (add x pageMask)

def atop (x : ℕ) : ℕ := x / pageSize

/-- A multiple of the page size. -/
def PageAligned (x : ℕ) : Prop := pageSize ∣ x

instance (x : ℕ) : Decidable (PageAligned x) := inferInstanceAs (Decidable (pageSize ∣ x))

theorem pageSize_pos : 0 < pageSize := Nat.two_pow_pos _

theorem pageSize_dvd_modulus : pageSize ∣ modulus :=
  pow_dvd_pow 2 PageSize.pageShift_lt.le

theorem pageSize_le_modulus : pageSize ≤ modulus :=
  Nat.le_of_dvd (by norm_num) pageSize_dvd_modulus

theorem pageMask_lt : pageMask < modulus := by
  have := pageSize_pos
  have := pageSize_le_modulus
  unfold pageMask
  omega

theorem and_pageMask (x : ℕ) : x &&& pageMask = x % pageSize :=
  Nat.and_two_pow_sub_one_eq_mod x PageSize.pageShift

theorem truncPage_add_mod {x : ℕ} (hx : x < modulus) : truncPage x + x % pageSize = x := by
  rw [← and_pageMask]
  exact and_not_add_and hx pageMask_lt

theorem truncPage_le {x : ℕ} (hx : x < modulus) : truncPage x ≤ x := by
  have := truncPage_add_mod hx
  omega

theorem lt_truncPage_add {x : ℕ} (hx : x < modulus) : x < truncPage x + pageSize := by
  have := truncPage_add_mod hx
  have := Nat.mod_lt x pageSize_pos
  omega

theorem truncPage_aligned {x : ℕ} (hx : x < modulus) : PageAligned (truncPage x) := by
  have h : truncPage x = x - x % pageSize := by
    have := truncPage_add_mod hx
    omega
  rw [h]
  exact Nat.dvd_sub_mod x

theorem truncPage_lt {x : ℕ} (hx : x < modulus) : truncPage x < modulus :=
  (truncPage_le hx).trans_lt hx

theorem truncPage_eq_self {x : ℕ} (hx : x < modulus) (h : PageAligned x) : truncPage x = x := by
  have := truncPage_add_mod hx
  rw [Nat.mod_eq_zero_of_dvd h] at this
  exact this

theorem roundPage_lt (x : ℕ) : roundPage x < modulus := truncPage_lt (add_lt _ _)

theorem roundPage_aligned (x : ℕ) : PageAligned (roundPage x) := truncPage_aligned (add_lt _ _)

theorem le_roundPage {x : ℕ} (h : x + pageMask < modulus) : x ≤ roundPage x := by
  have ha := add_of_lt h
  have hl := lt_truncPage_add (add_lt x pageMask)
  unfold roundPage
  have := pageSize_pos
  rw [ha] at hl ⊢
  unfold pageMask at hl ⊢
  omega

theorem roundPage_of_wrap {x : ℕ} (hx : x < modulus) (h : modulus ≤ x + pageMask) :
    roundPage x = 0 := by
  have hlt : add x pageMask < pageSize := by
    rw [add_of_ge hx pageMask_lt h]
    have := pageSize_pos
    unfold pageMask
    omega
  have := truncPage_add_mod (add_lt x pageMask)
  rw [Nat.mod_eq_of_lt hlt] at this
  unfold roundPage
  omega

theorem PageAligned.add {a b : ℕ} (ha : PageAligned a) (hb : PageAligned b) :
    PageAligned (Word32.add a b) :=
  (Nat.dvd_mod_iff pageSize_dvd_modulus).mpr (Nat.dvd_add ha hb)

theorem PageAligned.le_of_lt {a b : ℕ} (ha : PageAligned a) (hb : PageAligned b) (h : a < b) :
    a + pageSize ≤ b := by
  obtain ⟨k, rfl⟩ := ha
  obtain ⟨l, rfl⟩ := hb
  have hkl : k + 1 ≤ l := Nat.lt_of_mul_lt_mul_left h
  calc pageSize * k + pageSize = pageSize * (k + 1) := by ring
    _ ≤ pageSize * l := Nat.mul_le_mul_left _ hkl

theorem roundPage_lt_add {x : ℕ} (h : x + pageMask < modulus) : roundPage x < x + pageSize := by
  have htrunc := truncPage_le (add_lt x pageMask)
  rw [add_of_lt h] at htrunc
  have := pageSize_pos
  unfold roundPage
  rw [add_of_lt h]
  unfold pageMask at *
  omega

theorem roundPage_eq_iff {x : ℕ} (h : x + pageMask < modulus) :
    roundPage x = x ↔ PageAligned x := by
  refine ⟨fun heq => heq ▸ roundPage_aligned x, fun halign => ?_⟩
  have hle := le_roundPage h
  have hlt := roundPage_lt_add h
  by_contra hne
  have := halign.le_of_lt (roundPage_aligned x) (by omega)
  omega

theorem roundPage_add_lt (x : ℕ) : roundPage x + pageMask < modulus := by
  have hle := (roundPage_aligned x).le_of_lt (b := modulus) pageSize_dvd_modulus (roundPage_lt x)
  have := pageSize_pos
  unfold pageMask
  omega

end MachKernel.Vm

import FroggyOs.Library.Word

/-!
# Counting loops on 64-bit words

`upto body stop step` is the loop `for (a = start; a < stop; a += step) body(a)` with a
64-bit counter. The counter wraps around, so a loop whose last step leaves the address
space starts again from below and never ends; `none` is that case. A run that ends
visits an address at most once, so `2 ^ 64` is fuel enough for it.
-/

namespace Loop64

open Word64

variable {σ : Type*}

/-- The loop with an explicit bound on the number of tests of its condition. -/
def upto (body : σ → Nat → σ) (stop step : Nat) : Nat → Nat → σ → Option σ
  | 0, _, _ => none
  | fuel + 1, a, s =>
      if a < stop then upto body stop step fuel (add64 a step) (body s a) else some s

variable {body : σ → Nat → σ} {stop step : Nat}

/-- A loop that leaves its range before it wraps around folds its body over the
addresses it visits. -/
theorem upto_eq_foldl {k fuel a : Nat} {s : σ} (hbelow : ∀ i < k, a + step * i < stop)
    (hend : stop ≤ a + step * k) (hfits : a + step * k < 2 ^ 64) (hfuel : k < fuel) :
    upto body stop step fuel a s = some ((List.range' a k step).foldl body s) := by
  induction k generalizing fuel a s with
  | zero =>
      obtain ⟨fuel, rfl⟩ := Nat.exists_eq_succ_of_ne_zero (by omega : fuel ≠ 0)
      exact if_neg (by simpa using hend)
  | succ k ih =>
      obtain ⟨fuel, rfl⟩ := Nat.exists_eq_succ_of_ne_zero (by omega : fuel ≠ 0)
      rw [Nat.mul_succ] at hend hfits
      have hstart : a < stop := by simpa using hbelow 0 (by omega)
      have hnext : add64 a step = a + step := add64_eq (by omega)
      have hbelow' : ∀ i < k, a + step + step * i < stop := by
        intro i hi
        have := hbelow (i + 1) (by omega)
        rw [Nat.mul_succ] at this
        omega
      rw [upto, if_pos hstart, hnext, ih hbelow' (by omega) (by omega) (by omega),
        List.range'_succ, List.foldl_cons]

/-- A loop never ends when every address it can reach lies below its bound. -/
theorem upto_eq_none {fuel a : Nat} {s : σ} (hstep : step ∣ 2 ^ 64)
    (hbelow : ∀ b < 2 ^ 64, b % step = a % step → b < stop) (ha : a < 2 ^ 64) :
    upto body stop step fuel a s = none := by
  induction fuel generalizing a s with
  | zero => rfl
  | succ fuel ih =>
      have hclass : add64 a step % step = a % step := by
        rw [add64, Nat.mod_mod_of_dvd _ hstep, Nat.add_mod_right]
      rw [upto, if_pos (hbelow a ha rfl)]
      exact ih (fun b hb hmod => hbelow b hb (hmod.trans hclass)) (add64_lt _ _)

/-- What the body keeps, a loop that ends keeps. -/
theorem upto_induct {P : σ → Prop} (hbody : ∀ s a, P s → P (body s a)) {fuel a : Nat} {s s' : σ}
    (h : upto body stop step fuel a s = some s') (hs : P s) : P s' := by
  induction fuel generalizing a s with
  | zero => cases h
  | succ fuel ih =>
      rw [upto] at h
      split at h
      case isTrue => exact ih h (hbody s a hs)
      case isFalse =>
        cases h
        exact hs

end Loop64

import IrafCl.Cache.Memory

/-!
# Keys tell compilations apart

A key is the digest of the mode, the file name and the digest of the text, each closed by a zero byte. Digests are of
one length and a mode has no zero byte, so the parts can be told apart whatever the file name is (`keyMaterial_inj`).
Equal keys are digests of equal materials, as far as the hash has no collisions (`cacheKey_inj`).
-/

namespace IrafCl

namespace Bytes

theorem unhex?_hex (s : Bytes) : unhex? (hex s) = some s := by
  have hdigit : ∀ n, hexValue? (hexDigit n) = some (n % 16) := by
    have hall : ∀ n < 16, hexValue? (ascii (Nat.digitChar n)) = some n := by decide
    intro n
    exact hall (n % 16) (Nat.mod_lt n (by decide))
  induction s with
  | nil => rfl
  | cons b s ih =>
    have hb := b.toNat_lt
    have hbyte : UInt8.ofNat (16 * (b.toNat / 16 % 16) + b.toNat % 16) = b := by
      have heq : 16 * (b.toNat / 16 % 16) + b.toNat % 16 = b.toNat := by omega
      rw [heq, UInt8.ofNat_toNat]
    show unhex? (hexDigit (b.toNat / 16) :: hexDigit b.toNat :: hex s) = _
    simp only [unhex?, hdigit, ih, Option.bind_eq_bind, Option.bind_some, Option.pure_def, hbyte]

theorem hex_injective {a b : Bytes} (h : hex a = hex b) : a = b := by
  have hunhex := congrArg unhex? h
  rw [unhex?_hex, unhex?_hex] at hunhex
  exact Option.some.inj hunhex

end Bytes

theorem length_sourceDigest [Library] (source : Bytes) : (sourceDigest source).length = 2 * hashLength := by
  rw [sourceDigest, Bytes.length_hex, Library.length_hash]

/-- A text without zero bytes ends where the first zero byte stands. -/
theorem append_zero_inj {a b : Bytes} {s t : Bytes} (ha : 0 ∉ a) (hb : 0 ∉ b) (h : a ++ 0 :: s = b ++ 0 :: t) :
    a = b ∧ s = t := by
  have hbefore {a s : Bytes} (ha : 0 ∉ a) : (a ++ 0 :: s).takeWhile (· ≠ 0) = a := by
    have hall : ∀ x ∈ a, decide (x ≠ 0) = true := fun x hx => by
      rw [decide_eq_true_eq]
      rintro rfl
      exact ha hx
    rw [List.takeWhile_append_of_pos hall]
    simp
  have hab : a = b := by rw [← hbefore (s := s) ha, h, hbefore hb]
  subst hab
  exact ⟨rfl, by simpa using h⟩

/-- What a key is the digest of determines its parts. -/
theorem keyMaterial_inj {digest filename mode digest' filename' mode' : Bytes} (hmode : 0 ∉ mode) (hmode' : 0 ∉ mode')
    (hlength : digest.length = digest'.length) (h : keyMaterial digest filename mode = keyMaterial digest' filename' mode') :
    digest = digest' ∧ filename = filename' ∧ mode = mode' := by
  have hparts (digest filename mode : Bytes) :
      keyMaterial digest filename mode = mode ++ 0 :: (filename ++ 0 :: (digest ++ [0])) := by
    simp [keyMaterial]
  rw [hparts, hparts] at h
  obtain ⟨rfl, hrest⟩ := append_zero_inj hmode hmode' h
  obtain ⟨rfl, hdigest⟩ := List.append_inj' hrest (by simp [hlength])
  have hdigest : digest ++ [0] = digest' ++ [0] := by simpa using hdigest
  exact ⟨List.append_cancel_right hdigest, rfl, rfl⟩

theorem cacheKey_inj [Library] {digest filename mode digest' filename' mode' : Bytes}
    (h : cacheKey digest filename mode = cacheKey digest' filename' mode') :
    Library.hash (keyMaterial digest filename mode) = Library.hash (keyMaterial digest' filename' mode') :=
  Bytes.hex_injective (List.append_cancel_left h)

end IrafCl

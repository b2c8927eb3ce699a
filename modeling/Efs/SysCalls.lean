import Efs.Sys

/-!
# The disk and the crypto library

The rules for the calls that leave the enclave, in a world where none of them
fails.
-/

namespace Efs

open Library

/-- The calls of the disk and of the crypto library do not fail. -/
abbrev World.NoFailure (w : World) : Prop := ∀ i, w.fails i = false

/-- The disk and the crypto library do not fail, decryption inverts encryption,
and the host does not return from `panic`. -/
structure World.Reliable (w : World) : Prop where
  /-- No call fails. -/
  fails_eq : ∀ i, w.fails i = false
  /-- Decryption inverts encryption. -/
  decrypt_encrypt : ∀ iv key d, w.decrypt iv key (w.encrypt iv key d) = d
  /-- `panic` ends the run. -/
  panicReturns_eq : w.panicReturns = false

/-- The disk and the crypto library do not fail and decryption inverts encryption,
whether the host returns from `panic` or not. -/
structure World.Honest (w : World) : Prop where
  /-- No call fails. -/
  fails_eq : ∀ i, w.fails i = false
  /-- Decryption inverts encryption. -/
  decrypt_encrypt : ∀ iv key d, w.decrypt iv key (w.encrypt iv key d) = d

/-- A reliable world is honest. -/
theorem World.Reliable.honest {w : World} (h : w.Reliable) : w.Honest :=
  ⟨h.fails_eq, h.decrypt_encrypt⟩

instance {w : World} : Coe w.Reliable w.Honest := ⟨World.Reliable.honest⟩

/-- The plain world is reliable. -/
theorem World.plain_reliable : World.plain.Reliable := ⟨fun _ => rfl, fun _ _ _ => rfl, rfl⟩

section

variable {w : World} {E : Halt → Prop} {s : Sys} {bid : ℕ}

/-- The rule for a call that leaves the enclave. -/
theorem wp_external (hw : w.NoFailure) {Q : Bool → Sys → Prop}
    (hQ : ∀ calls, Q false { s with calls }) : Exec.Wp (external w) Q E s := by
  simpa only [external, Exec.wp_bind, Exec.wp_read, Exec.wp_update, Exec.wp_pure, hw _]
    using hQ _

/-- The rule for `sha256_block`. -/
theorem wp_sha256Block (hw : w.NoFailure) {data : Data} {Q : Option Key256 → Sys → Prop}
    (hQ : ∀ calls, Q (some (w.sha256 data)) { s with calls }) :
    Exec.Wp (sha256Block w data) Q E s :=
  Exec.wp_bind.mpr (wp_external hw hQ)

/-- The rule for `sha256_validate`. -/
theorem wp_sha256Validate (hw : w.NoFailure) {data : Data} {hash : Key256} {Q : Bool → Sys → Prop}
    (hQ : ∀ calls, Q (w.sha256 data ≠ hash) { s with calls }) :
    Exec.Wp (sha256Validate w data hash) Q E s :=
  Exec.wp_bind.mpr (wp_sha256Block hw hQ)

/-- The rule for `aes128_block_encrypt`. -/
theorem wp_aes128BlockEncrypt (hw : w.NoFailure) {iv key : Key128} {data : Data}
    {Q : Option Data → Sys → Prop}
      (hQ : ∀ calls, Q (some (w.encrypt iv key data)) { s with calls }) :
    Exec.Wp (aes128BlockEncrypt w iv key data) Q E s :=
  Exec.wp_bind.mpr (wp_external hw hQ)

/-- The rule for `aes128_block_decrypt`. -/
theorem wp_aes128BlockDecrypt (hw : w.NoFailure) {iv key : Key128} {data : Data}
    {Q : Option Data → Sys → Prop}
      (hQ : ∀ calls, Q (some (w.decrypt iv key data)) { s with calls }) :
    Exec.Wp (aes128BlockDecrypt w iv key data) Q E s :=
  Exec.wp_bind.mpr (wp_external hw hQ)

/-- The rule for `disk_read`. -/
theorem wp_diskRead (hw : w.NoFailure) {Q : Option Data → Sys → Prop}
    (hQ : ∀ calls, Q (some (s.disk bid)) { s with calls }) : Exec.Wp (diskRead w bid) Q E s :=
  Exec.wp_bind.mpr (wp_external hw hQ)

/-- The rule for `disk_write`. -/
theorem wp_diskWrite (hw : w.NoFailure) {data : Data} {Q : Bool → Sys → Prop}
    (hQ : ∀ calls, Q false { s with disk := Function.update s.disk bid data, calls }) :
    Exec.Wp (diskWrite w data bid) Q E s :=
  Exec.wp_bind.mpr (wp_external hw hQ)

end

end Efs

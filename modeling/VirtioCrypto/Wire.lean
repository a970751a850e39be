import VirtioCrypto.Cryptodev.Ioctl

/-!
# The request message

`struct crypto_data`, shared by the guest driver and the device, as the x86-64
ABI lays it out: the operation union, the key, source, destination and IV
arrays, and the command word, with the padding between them.
`CRYPTO_DATA_MAX_LEN` and `CRYPTO_BLOCK_MAX_LEN` are defined outside the
repository and stay parameters.
-/

namespace VirtioCrypto

open Octets Cryptodev

/-- The two array sizes of `struct crypto_data` that the repository leaves open. -/
structure Layout where
  dataMax : Nat
  blockMax : Nat
  dataMax_pos : 0 < dataMax
  blockMax_pos : 0 < blockMax

namespace Layout

variable (L : Layout)

def keypOff (_ : Layout) : Nat := OP_SIZE
def srcpOff : Nat := L.keypOff + CRYPTO_CIPHER_MAX_KEY_LEN
def dstpOff : Nat := L.srcpOff + L.dataMax
def ivpOff : Nat := L.dstpOff + L.dataMax
-- unsigned int is aligned to 4, the struct to 8
def cmdOff : Nat := (L.ivpOff + L.blockMax + 3) / 4 * 4
def sizeof : Nat := (L.cmdOff + 4 + 7) / 8 * 8

theorem keypOff_eq : L.keypOff = 48 := rfl

theorem srcpOff_eq : L.srcpOff = 112 := rfl

theorem dstpOff_eq : L.dstpOff = 112 + L.dataMax := rfl

theorem ivpOff_eq : L.ivpOff = 112 + L.dataMax + L.dataMax := rfl

/-- The command word lies behind the arrays and inside the struct. -/
theorem cmdOff_bounds : L.ivpOff + L.blockMax ≤ L.cmdOff ∧ L.cmdOff + 4 ≤ L.sizeof := by
  unfold sizeof cmdOff
  omega

end Layout

/-- The three commands the driver and the device know. -/
inductive Cmd
  | CIOCGSESSION
  | CIOCCRYPT
  | CIOCFSESSION
deriving DecidableEq, Repr

/-- The ioctl number, `_IOWR('c', 102, struct session_op)` and so on. -/
def Cmd.word : Cmd → Nat
  | .CIOCGSESSION => 0xC0306366
  | .CIOCCRYPT => 0xC0306368
  | .CIOCFSESSION => 0x40046367

/-- The `switch` on a command word; `none` is the default branch. -/
def Cmd.ofWord (w : Nat) : Option Cmd :=
  if w = Cmd.CIOCGSESSION.word then some .CIOCGSESSION
  else if w = Cmd.CIOCCRYPT.word then some .CIOCCRYPT
  else if w = Cmd.CIOCFSESSION.word then some .CIOCFSESSION
  else none

theorem Cmd.ofWord_word (c : Cmd) : Cmd.ofWord c.word = some c := by
  cases c <;> decide

theorem Cmd.word_of_ofWord {w : Nat} {c : Cmd} (h : Cmd.ofWord w = some c) : w = c.word := by
  unfold Cmd.ofWord at h
  split at h
  · next hw =>
    rw [hw, ← Option.some.inj h]
  split at h
  · next hw =>
    rw [hw, ← Option.some.inj h]
  split at h
  · next hw =>
    rw [hw, ← Option.some.inj h]
  · exact absurd h (by simp)

/-- Every command number is a 32-bit word. -/
theorem Cmd.word_lt (c : Cmd) : c.word < 256 ^ 4 := by
  cases c <;> decide

end VirtioCrypto

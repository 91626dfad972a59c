/-
# The cipher and the hash of `encrypt_openssl.h`

`CipherSsl` is AES-128-GCM under one key and one IV for all texts.  `HashSsl` was to be a hash with
the same key: the texts are encrypted one after the other, and the tag is the hash.

It never starts.  `init` compares the null context with the one that EVP allocates, where an
assignment was meant: `valid = (pState == EVP_CIPHER_CTX_new()) && ...`.  So `valid` is false,
`update` and `finalize` return at once, and `mac` stays zero: every hash is equal to every other
(`HashSsl.update_new`, `HashSsl.finalize_new`).
-/
import Avocado.Crypt.Gcm

namespace Avocado

open Bytes

/-! ## 1. `CipherSsl` -/

/-- `_key` and `_iv` of a `CipherSsl`. -/
structure Cipher where
  gcm : Gcm
  iv : List UInt8

/-- `new uint8_t[n]` by `make_unique`, and the initial `mac`: zeros. -/
def zeros (n : Nat) : List UInt8 := List.replicate n 0

theorem length_zeros (n : Nat) : (zeros n).length = n := List.length_replicate

namespace Cipher

/-- `CipherSsl::encrypt`: its result, and `dst` and `mac` afterwards. -/
def encrypt (c : Cipher) (dst src : List UInt8) (size : Nat) (mac : List UInt8) :
    Option (Bool × List UInt8 × List UInt8) :=
  match evpLen size with
  | none => some (false, dst, mac)
  | some inl => do
    let text ← load src 0 inl
    let dst ← store dst 0 (c.gcm.encrypt c.iv text).1
    some (true, dst, (c.gcm.encrypt c.iv text).2)

/-- `CipherSsl::decrypt`: its result, and `dst` afterwards. -/
def decrypt (c : Cipher) (dst src : List UInt8) (size : Nat) (mac : List UInt8) :
    Option (Bool × List UInt8) :=
  match evpLen size with
  | none => some (false, dst)
  | some inl => do
    let text ← load src 0 inl
    let dst ← store dst 0 (c.gcm.decryptUpdate c.iv text)
    some (c.gcm.decryptFinal c.iv text mac, dst)

variable {c : Cipher} {src res mac : List UInt8} {size : Nat} {ok : Bool}

/-- A text is encrypted whole, into a buffer of its length. -/
theorem encrypt_eq (hc : c.gcm.Lawful) (hsrc : src.length < 2 ^ 31) :
    c.encrypt (zeros src.length) src src.length mac =
      some (true, (c.gcm.encrypt c.iv src).1, (c.gcm.encrypt c.iv src).2) := by
  have hload : load src 0 src.length = some src := load_whole src
  have hstore : store (zeros src.length) 0 (c.gcm.encrypt c.iv src).1 =
      some (c.gcm.encrypt c.iv src).1 :=
    store_whole (by rw [hc.length_encrypt, length_zeros])
  simp only [encrypt, evpLen_of_lt hsrc, hload, hstore, Option.bind_eq_bind, Option.bind_some]

theorem decrypt_eq (mac : List UInt8) (hc : c.gcm.Lawful) {n : Nat} (hn : n ≤ src.length)
    (hlt : n < 2 ^ 31) :
    c.decrypt (zeros n) src n mac = some (c.gcm.decryptFinal c.iv (src.take n) mac,
      c.gcm.decryptUpdate c.iv (src.take n)) := by
  have hload : load src 0 n = some (src.take n) := by
    rw [load, if_pos (by omega), List.drop_zero]
  have hstore : store (zeros n) 0 (c.gcm.decryptUpdate c.iv (src.take n)) =
      some (c.gcm.decryptUpdate c.iv (src.take n)) :=
    store_whole (by rw [hc.length_update, List.length_take, Nat.min_eq_left hn, length_zeros])
  simp only [decrypt, evpLen_of_lt hlt, hload, hstore, Option.bind_eq_bind, Option.bind_some]

/-- **The first bytes of a cipher text decrypt**, whatever the tag. -/
theorem decrypt_take (mac : List UInt8) (hc : c.gcm.Lawful) (hs : c.gcm.Streams)
    {text : List UInt8} {n : Nat} (hn : n ≤ text.length) (hlt : n < 2 ^ 31) :
    ∃ ok, c.decrypt (zeros n) (c.gcm.encrypt c.iv text).1 n mac = some (ok, text.take n) := by
  have hlen := hc.length_encrypt c.iv text
  have h := decrypt_eq mac hc (Nat.le_trans hn (Nat.le_of_eq hlen.symm)) hlt
  rw [hs, hc.update_encrypt] at h
  exact ⟨_, h⟩

/-- **Decryption undoes encryption.** -/
theorem decrypt_encrypt (hc : c.gcm.Lawful) (hsrc : src.length < 2 ^ 31) :
    c.decrypt (zeros src.length) (c.gcm.encrypt c.iv src).1 src.length
      (c.gcm.encrypt c.iv src).2 = some (true, src) := by
  have hlen := hc.length_encrypt c.iv src
  rw [decrypt_eq _ hc (Nat.le_of_eq hlen.symm) hsrc, List.take_of_length_le (Nat.le_of_eq hlen),
    hc.final_encrypt, hc.update_encrypt]

/-- A successful `decrypt` has handled fewer than 2 ^ 31 bytes. -/
theorem decrypt_size {dst : List UInt8} (h : c.decrypt dst src size mac = some (true, res)) :
    size % 2 ^ 32 < 2 ^ 31 ∧ res.length = dst.length := by
  unfold decrypt evpLen at h
  split at h
  · injection h with h
    exact absurd (congrArg Prod.fst h) (by simp)
  · rename_i inl hinl
    simp only [Option.bind_eq_bind, Option.bind_eq_some_iff, Option.some.injEq,
      Prod.mk.injEq] at h
    obtain ⟨text, -, dst', hdst, -, rfl⟩ := h
    refine ⟨?_, store_length hdst⟩
    split at hinl
    · assumption
    · exact absurd hinl (by simp)

end Cipher

/-! ## 2. `HashSsl` -/

/-- `pState` is the EVP context, with the text it was given so far, or the null pointer. -/
structure HashSsl where
  pState : Option (List UInt8)
  valid : Bool
  final : Bool
  mac : List UInt8
  deriving DecidableEq, Repr

namespace HashSsl

/-- `EVP_CIPHER_CTX_new`: a context that was given nothing. -/
def evpCipherCtxNew : Option (List UInt8) := some []

/-- The constructor.  The new context is compared with `pState` and forgotten. -/
def new : HashSsl :=
  let pState := none
  { pState, valid := pState == evpCipherCtxNew, final := false, mac := zeros macSize }

/-- The copy constructor: a context would be copied into the null pointer, which copies nothing. -/
def copy (h : HashSsl) : HashSsl :=
  { h with pState := none, mac := if h.final then h.mac else zeros macSize }

/-- `update` and `SplitCipherSsl::update_`; `none` on a null context, and where the loop does not
end: it runs until `dst_pos` reaches the size, and nothing advances `dst_pos`.  It ends after a call
that fails, because the length is negative as an `int`, and after a call with the length zero. -/
def update (h : HashSsl) (src : List UInt8) : Option HashSsl :=
  if h.valid && !h.final then
    match h.pState, evpLen src.length with
    | none, _ => none
    | some _, none => some { h with valid := false }
    | some _, some 0 => some h
    | some _, some (_ + 1) => none
  else some h

/-- `finalize`: the tag of the text; `none` on a null context. -/
def finalize (c : Cipher) (h : HashSsl) : Option HashSsl :=
  if h.valid && !h.final then
    match h.pState with
    | none => none
    | some text => some { h with final := true, mac := (c.gcm.encrypt c.iv text).2 }
  else some h

/-- `equal`. -/
def equal (h : HashSsl) (mac : List UInt8) : Bool := h.mac == mac

/-- `update` with one MAC after the other. -/
def updates (h : HashSsl) (macs : List (List UInt8)) : Option HashSsl :=
  macs.foldlM (fun h mac => h.update mac) h

@[simp] theorem copy_new : new.copy = new := rfl

@[simp] theorem update_new (src : List UInt8) : new.update src = some new := rfl

@[simp] theorem finalize_new (c : Cipher) : new.finalize c = some new := rfl

@[simp] theorem updates_new : ∀ macs : List (List UInt8), new.updates macs = some new
  | [] => rfl
  | mac :: macs => by
    rw [updates, List.foldlM_cons, update_new]
    exact updates_new macs

/-- **All hashes are zero**, and so is the hash of an empty bucket. -/
theorem equal_new : new.equal (zeros macSize) = true := rfl

end HashSsl

end Avocado

import StakeQuorum.Proofs.Base58.RoundTrip
import StakeQuorum.Proofs.Transaction.Wire
import StakeQuorum.Signature.Ed25519

/-! # Signed transactions

A transaction that is signed with a seed verifies, also after it went over the wire. Whatever
verifies names one public key as its signer, and the signature was checked against this key.
-/

namespace StakeQuorum

namespace PublicKey

variable {s : Bytes} {k : PublicKey}

theorem ofBase58?_eq_some_iff : ofBase58? s = some k ↔ k.toBase58 = s := by
  simp only [ofBase58?, Option.bind_eq_some_iff, FixedBytes.ofBytes?_eq_some_iff]
  constructor
  · rintro ⟨bs, hbs, rfl⟩
    exact Base58.encode_of_decode? hbs
  · rintro rfl
    exact ⟨k.bytes, Base58.decode?_encode k.bytes, rfl⟩

theorem length_toBase58_le (k : PublicKey) : k.toBase58.length ≤ CompactSize.maxSize := by
  have h := Base58.length_encode_le k.bytes
  rw [FixedBytes.length_bytes] at h
  exact h.trans (by decide)

end PublicKey

namespace Transaction

variable {s : SignatureScheme} {tx : Transaction} {payload : Bytes}

theorem verifies_iff : tx.verifies s = true ↔ ∃ key, PublicKey.ofBase58? tx.signer = some key ∧
    s.verify key tx.signingMessage tx.signature = true := by
  unfold verifies
  cases PublicKey.ofBase58? tx.signer <;> simp

theorem verifies_signed (h : s.Correct) (payload : Bytes) (seed : Seed) (timestamp : Int64) :
    (signed s payload seed timestamp).verifies s = true :=
  verifies_iff.2 ⟨s.publicKey seed, PublicKey.ofBase58?_eq_some_iff.2 rfl, h seed _⟩

theorem fits_signed (s : SignatureScheme) (h : payload.length ≤ CompactSize.maxSize) (seed : Seed)
    (timestamp : Int64) : (signed s payload seed timestamp).Fits :=
  ⟨h, PublicKey.length_toBase58_le _⟩

/-- If signatures verify under the keys they were made for, then so do signed transactions, before
and after they are written and read back. A transaction that verifies has the text of exactly one
key as its signer, and its signature verifies under that key. -/
theorem verifies_for_one_key (s : SignatureScheme) :
    (s.Correct → ∀ payload seed timestamp, payload.length ≤ CompactSize.maxSize →
      let tx := signed s payload seed timestamp
      tx.payload = payload ∧ tx.timestamp = timestamp ∧ tx.verifies s = true ∧
        ∃ read, decode? tx.encode = some read ∧ read.verifies s = true) ∧
    ∀ tx : Transaction, tx.verifies s = true →
      ∃ key : PublicKey, (∀ k : PublicKey, k.toBase58 = tx.signer ↔ k = key) ∧
        PublicKey.ofBase58? tx.signer = some key ∧
        s.verify key tx.signingMessage tx.signature = true := by
  constructor
  · intro h payload seed timestamp hpayload
    have hverifies := verifies_signed h payload seed timestamp
    exact ⟨rfl, rfl, hverifies, _, decode?_encode (fits_signed s hpayload seed timestamp),
      hverifies⟩
  · intro tx h
    obtain ⟨key, hkey, hverified⟩ := verifies_iff.1 h
    refine ⟨key, fun k => ?_, hkey, hverified⟩
    rw [← PublicKey.ofBase58?_eq_some_iff, hkey, Option.some.injEq, eq_comm]

open Classical in
/-- Ed25519, with whatever it has signed itself among what verifies. -/
noncomputable def selfConsistent : SignatureScheme where
  publicKey := Ed25519.publicKey
  sign := Ed25519.sign
  verify key message signature := Ed25519.verify key message signature ||
    decide (∃ seed, key = Ed25519.publicKey seed ∧ signature = Ed25519.sign seed message)

theorem correct_selfConsistent : selfConsistent.Correct := by
  intro seed message
  simp only [selfConsistent, Bool.or_eq_true, decide_eq_true_eq]
  exact .inr ⟨seed, rfl, rfl⟩

theorem signed_selfConsistent (payload : Bytes) (seed : Seed) (timestamp : Int64) :
    signed selfConsistent payload seed timestamp =
      signed Ed25519.scheme payload seed timestamp := by
  simp only [signed, selfConsistent, Ed25519.scheme]

/-- A payment that is signed with the seed of zeros. -/
theorem verifies_for_one_key_payment :
    let tx := signed Ed25519.scheme "pay" FixedBytes.zero 5
    selfConsistent.Correct ∧ ("pay" : Bytes).length ≤ CompactSize.maxSize ∧
      tx.verifies selfConsistent = true ∧
      (∃ read, decode? tx.encode = some read ∧ read.verifies selfConsistent = true) ∧
      ∃ key : PublicKey, (∀ k : PublicKey, k.toBase58 = tx.signer ↔ k = key) ∧
        selfConsistent.verify key tx.signingMessage tx.signature = true := by
  intro tx
  have hshort : ("pay" : Bytes).length ≤ CompactSize.maxSize := by decide
  have hsame : signed selfConsistent "pay" FixedBytes.zero 5 = tx := signed_selfConsistent _ _ _
  obtain ⟨hsigned, hkeys⟩ := verifies_for_one_key selfConsistent
  obtain ⟨-, -, hverifies, hread⟩ :=
    hsigned correct_selfConsistent "pay" FixedBytes.zero 5 hshort
  rw [hsame] at hverifies hread
  obtain ⟨key, honly, -, hverified⟩ := hkeys tx hverifies
  exact ⟨correct_selfConsistent, hshort, hverifies, hread, key, honly, hverified⟩

end Transaction

end StakeQuorum

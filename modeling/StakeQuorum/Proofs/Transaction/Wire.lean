import StakeQuorum.Proofs.Codec.Sizes
import StakeQuorum.Transaction

/-! # The wire form of transactions

A transaction whose payload and signer are not too long has exactly one form that is read, and
nothing else is read as it. What is signed determines the payload, the signer and the time, and what
is hashed determines the whole transaction, also where a field is too long to be read.
-/

namespace StakeQuorum.Transaction

open CompactSize (Form encodeBytes)
open Reader

variable {tx tx' : Transaction} {data rest form : Bytes} {n : Nat}

/-- The payload and the signer are not too long to be read. -/
def Fits (tx : Transaction) : Prop :=
  tx.payload.length ≤ CompactSize.maxSize ∧ tx.signer.length ≤ CompactSize.maxSize

instance (tx : Transaction) : Decidable tx.Fits := inferInstanceAs (Decidable (_ ∧ _))

theorem signingMessage_eq (tx : Transaction) : tx.signingMessage =
    Field.encode (.u8 version) ++ (encodeBytes tx.payload ++
      (encodeBytes tx.signer ++ Field.encode (.i64 tx.timestamp))) := by
  simp [signingMessage, fields, Field.encodeAll, Field.encode]

theorem encode_eq (tx : Transaction) : tx.encode =
    Field.encode (.u8 version) ++ (encodeBytes tx.payload ++ (encodeBytes tx.signer ++
      (Field.encode (.i64 tx.timestamp) ++ Field.encode (.block tx.signature)))) := by
  rw [encode, signingMessage_eq]
  simp only [List.append_assoc]

/-! ### Reading -/

theorem reads_reader (h : tx.Fits) : Reads reader tx.encode (some tx) := by
  rw [encode_eq]
  refine Reads.versioned version ?_
  refine (CompactSize.reads_readBytes h.1).bind ((CompactSize.reads_readBytes h.2).bind ?_)
  exact (reads_i64 tx.timestamp).bind ((reads_block tx.signature).map _)

theorem decode?_encode (h : tx.Fits) : decode? tx.encode = some tx := by
  rw [decode?, (reads_reader h).decode?, Option.join_some]

/-- Whatever is read as a transaction is its wire form. -/
theorem eq_encode_of_decode? (h : decode? data = some tx) : data = tx.encode ∧ tx.Fits := by
  rw [decode?, Option.join_eq_some_iff, Reader.decode?_eq_some_iff] at h
  obtain ⟨_, rfl, hbody⟩ := eq_of_versioned h
  obtain ⟨payload, _, hp, h⟩ := Reader.bind_eq_ok_iff.1 hbody
  obtain ⟨signer, _, hs, h⟩ := Reader.bind_eq_ok_iff.1 h
  obtain ⟨timestamp, _, ht, h⟩ := Reader.bind_eq_ok_iff.1 h
  obtain ⟨signature, _, hsig, h⟩ := Reader.bind_eq_ok_iff.1 h
  simp only [pure_run, Prod.mk.injEq, Except.ok.injEq, Option.some.injEq] at h
  obtain ⟨rfl, rfl⟩ := h
  obtain ⟨rfl, hpayload⟩ := CompactSize.eq_of_readBytes hp
  obtain ⟨rfl, hsigner⟩ := CompactSize.eq_of_readBytes hs
  refine ⟨?_, hpayload, hsigner⟩
  rw [eq_of_i64 ht, eq_of_block hsig, encode_eq, List.append_nil]

theorem decode?_eq_some_iff : decode? data = some tx ↔ data = tx.encode ∧ tx.Fits := by
  constructor
  · exact eq_encode_of_decode?
  · rintro ⟨rfl, h⟩
    exact decode?_encode h

theorem reads_of_decode? (h : decode? data = some tx) : Reads reader data (some tx) := by
  obtain ⟨rfl, hfits⟩ := eq_encode_of_decode? h
  exact reads_reader hfits

/-! ### Refusals -/

theorem decode?_eq_none_of_refuses (h : Refuses reader data) (rest : Bytes) :
    decode? (data ++ rest) = none := by
  obtain ⟨e, left, he⟩ := h rest
  simp [decode?, Reader.decode?, he]

theorem eq_nil_of_decode?_append (h : decode? data = some tx)
    (h' : decode? (data ++ rest) = some tx') : rest = [] :=
  ((reads_of_decode? h).unique (reads_of_decode? h') (List.append_nil _).symm).2

theorem decode?_take_eq_none (h : decode? data = some tx) (hn : n < data.length) :
    decode? (data.take n) = none := by
  rw [Option.eq_none_iff_forall_ne_some]
  intro tx' htx'
  have hdrop := eq_nil_of_decode?_append htx' ((List.take_append_drop n data).symm ▸ h)
  exact absurd (List.drop_eq_nil_iff.1 hdrop) (Nat.not_le.2 hn)

theorem decode?_append_eq_none (h : decode? data = some tx) (hrest : rest ≠ []) :
    decode? (data ++ rest) = none := by
  rw [Option.eq_none_iff_forall_ne_some]
  intro tx' htx'
  exact hrest (eq_nil_of_decode?_append h htx')

theorem decode?_of_ne_version {v : UInt8} (h : v ≠ version) (rest : Bytes) :
    decode? (v :: rest) = none := by
  rw [Option.eq_none_iff_forall_ne_some]
  intro tx htx
  have hencode := (eq_encode_of_decode? htx).1
  rw [encode_eq] at hencode
  exact h (List.cons.inj hencode).1

theorem refuses_payload (h : Refuses CompactSize.read form) :
    Refuses reader (Field.encode (.u8 version) ++ form) :=
  Refuses.versioned version ((CompactSize.refuses_readBytes_of_read h).bind_nil _)

theorem refuses_signer (h : Refuses CompactSize.read form) (payload : Bytes) :
    Refuses reader (Field.encode (.u8 version) ++ (encodeBytes payload ++ form)) := by
  refine Refuses.versioned version ?_
  by_cases hp : payload.length ≤ CompactSize.maxSize
  · refine (CompactSize.reads_readBytes hp).refuses_bind ?_
    exact (CompactSize.refuses_readBytes_of_read h).bind_nil _
  · exact (CompactSize.refuses_readBytes (Nat.not_le.1 hp)).bind _ _

theorem decode?_of_refuses_read (h : Refuses CompactSize.read form) :
    (∀ rest, decode? (version :: (form ++ rest)) = none) ∧
      ∀ payload rest, decode? (version :: (encodeBytes payload ++ (form ++ rest))) = none := by
  constructor
  · intro rest
    exact decode?_eq_none_of_refuses (refuses_payload h) rest
  · intro payload rest
    have hnone := decode?_eq_none_of_refuses (refuses_signer h payload) rest
    rw [List.append_assoc, List.append_assoc] at hnone
    exact hnone

/-- A transaction that fits has one accepted form. Parts of an accepted form, accepted forms with
something behind them, other versions and sizes that are not in their shortest form are refused. -/
theorem one_accepted_form :
    (∀ data tx, decode? data = some tx ↔ data = tx.encode ∧ tx.Fits) ∧
    (∀ tx : Transaction, tx.Fits → ∃! data, decode? data = some tx) ∧
    (∀ data tx, decode? data = some tx →
      (∀ n < data.length, decode? (data.take n) = none) ∧
      ∀ rest, rest ≠ [] → decode? (data ++ rest) = none) ∧
    (∀ v rest, v ≠ version → decode? (v :: rest) = none) ∧
    ∀ n form, Form n form → form ≠ CompactSize.encode n →
      (∀ rest, decode? (version :: (form ++ rest)) = none) ∧
      ∀ payload rest, decode? (version :: (encodeBytes payload ++ (form ++ rest))) = none := by
  refine ⟨fun _ _ => decode?_eq_some_iff, ?_, ?_, ?_, ?_⟩
  · intro tx h
    exact ⟨tx.encode, decode?_encode h, fun data hdata => (eq_encode_of_decode? hdata).1⟩
  · intro data tx h
    exact ⟨fun n => decode?_take_eq_none h, fun rest => decode?_append_eq_none h⟩
  · intro v rest h
    exact decode?_of_ne_version h rest
  · intro n form h hlong
    exact decode?_of_refuses_read (h.refuses hlong)

/-- A transaction with a short payload. Both of its sizes also have a form of three bytes. -/
theorem one_accepted_form_short :
    let tx : Transaction := { payload := [7, 8], signer := "11", timestamp := -5 }
    tx.Fits ∧ decode? tx.encode = some tx ∧ 3 < tx.encode.length ∧
      decode? (tx.encode.take 3) = none ∧ decode? (tx.encode ++ [0]) = none ∧
      (2 ≠ version ∧ decode? (2 :: tx.encode.tail) = none) ∧
      Form 2 [253, 2, 0] ∧ [253, 2, 0] ≠ CompactSize.encode 2 ∧
      decode? (version :: ([253, 2, 0] ++ tx.encode.drop 2)) = none ∧
      decode? (version :: (encodeBytes [7, 8] ++ ([253, 2, 0] ++ tx.encode.drop 5))) = none := by
  intro tx
  obtain ⟨hiff, -, hparts, hversion, hform⟩ := one_accepted_form
  have hfits : tx.Fits := by decide
  have hread : decode? tx.encode = some tx := (hiff _ _).2 ⟨rfl, hfits⟩
  have hlength : 3 < tx.encode.length := by decide
  have htwo : Form 2 [253, 2, 0] := .two (by decide)
  have hlong : [253, 2, 0] ≠ CompactSize.encode 2 := by decide
  exact ⟨hfits, hread, hlength, (hparts _ _ hread).1 3 hlength,
    (hparts _ _ hread).2 [0] (by decide), ⟨by decide, hversion 2 _ (by decide)⟩, htwo, hlong,
    (hform 2 _ htwo hlong).1 _, (hform 2 _ htwo hlong).2 _ _⟩

/-! ### What is signed and what is hashed -/

/-- The lengths of the payload and the signer fit a word. -/
def Sized (tx : Transaction) : Prop := tx.payload.length < 2 ^ 64 ∧ tx.signer.length < 2 ^ 64

instance (tx : Transaction) : Decidable tx.Sized := inferInstanceAs (Decidable (_ ∧ _))

def hasher (tx : Transaction) : Hasher :=
  (({} : Hasher).write tx.signingMessage).write tx.signature.bytes

/-- Reads the payload, the signer and the time of what is signed, however long they are. -/
def messageReader : Reader (Bytes × Bytes × Int64) := do
  let _ ← Reader.u8
  let payload ← CompactSize.unboundedBytes
  let signer ← CompactSize.unboundedBytes
  let timestamp ← Reader.i64
  return (payload, signer, timestamp)

theorem reads_messageReader (h : tx.Sized) :
    Reads messageReader tx.signingMessage (tx.payload, tx.signer, tx.timestamp) := by
  have hword : (256 : Nat) ^ 8 = 2 ^ 64 := by decide
  rw [signingMessage_eq]
  refine (reads_u8 version).bind ?_
  refine (CompactSize.reads_unboundedBytes (hword ▸ h.1)).bind ?_
  exact (CompactSize.reads_unboundedBytes (hword ▸ h.2)).bind ((reads_i64 tx.timestamp).map _)

/-- What is signed shows its fields and where it ends. -/
theorem eq_of_signingMessage_append {rest' : Bytes} (h : tx.Sized) (h' : tx'.Sized)
    (heq : tx.signingMessage ++ rest = tx'.signingMessage ++ rest') :
    (tx.payload = tx'.payload ∧ tx.signer = tx'.signer ∧ tx.timestamp = tx'.timestamp) ∧
      rest = rest' := by
  simpa only [Prod.mk.injEq] using (reads_messageReader h).unique (reads_messageReader h') heq

theorem eq_of_encode_eq (h : tx.Sized) (h' : tx'.Sized) (heq : tx.encode = tx'.encode) :
    tx = tx' := by
  obtain ⟨⟨hpayload, hsigner, htimestamp⟩, hsignature⟩ := eq_of_signingMessage_append h h' heq
  cases tx
  cases tx'
  simp_all [Field.encode, FixedBytes.ext_iff]

/-- What is signed is signed for one payload, signer and time, and the hash is that of the wire
form, which belongs to one transaction. -/
theorem signature_covers_one (h : tx.Sized) (h' : tx'.Sized) :
    (tx.signingMessage = tx'.signingMessage →
      tx.payload = tx'.payload ∧ tx.signer = tx'.signer ∧ tx.timestamp = tx'.timestamp) ∧
    (tx.hasher.message = tx'.hasher.message → tx = tx') ∧
    tx.hasher.message = tx.encode ∧ tx.hash = tx.hasher.finish.1 ∧
    tx.hash = sha256 tx.encode := by
  have hmessage : ∀ t : Transaction, t.hasher.message = t.encode := fun t => rfl
  refine ⟨?_, ?_, hmessage tx, rfl, hash_eq tx⟩
  · intro heq
    exact (eq_of_signingMessage_append h h' (congrArg (· ++ []) heq)).1
  · rw [hmessage, hmessage]
    exact eq_of_encode_eq h h'

/-- A byte moves from the payload to the signer, or the signature changes. -/
theorem signature_covers_one_shifted :
    let tx : Transaction := { payload := "ab", signer := "c" }
    let moved : Transaction := { payload := "a", signer := "bc" }
    let forged : Transaction := { tx with signature := FixedBytes.pad 64 [1] }
    tx.Sized ∧ moved.Sized ∧ forged.Sized ∧ tx.signingMessage ≠ moved.signingMessage ∧
      tx.hasher.message ≠ moved.hasher.message ∧
      tx.signingMessage = forged.signingMessage ∧ tx.payload = forged.payload ∧
      tx.hasher.message ≠ forged.hasher.message ∧ tx.hash = sha256 tx.encode := by
  intro tx moved forged
  have h : tx.Sized := by decide
  have hmoved : moved.Sized := by decide
  have hforged : forged.Sized := by decide
  obtain ⟨hcovers, hhashed, -⟩ := signature_covers_one h hmoved
  obtain ⟨hsame, hapart, -, -, hhash⟩ := signature_covers_one h hforged
  exact ⟨h, hmoved, hforged, fun heq => absurd (hcovers heq).1 (by decide),
    fun heq => absurd (hhashed heq) (by decide), rfl, (hsame rfl).1,
    fun heq => absurd (hapart heq) (by decide), hhash⟩

end StakeQuorum.Transaction

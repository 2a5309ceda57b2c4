import Firefly.Boot.Stages
import Firefly.Boot.Verified
import Firefly.Crypto.AesCbc
import Firefly.Crypto.Sha1

/-!
# Firefly.Boot.Crypto

The default callbacks of `fd_boot.c` for the hash and the decryption: `fd_boot_hash_*` over `fd_crypto_sha.c`
and `fd_boot_decrypt_*` over `fd_crypto_aes.c`. Their states are the context of the hash and the static
variables of the cipher, which are related to the data that was hashed and to the key and the vector of the
standard. The boot loader asks of them only what the relations carry on: blocks of 64 bytes at most for the
hash, and whole blocks for the decryption. So it does what it would do with the two standards
(`crypto_update`).
-/

namespace Firefly
namespace Boot

open Result

namespace Setup

/-! ## Callbacks -/

/-- `fd_boot_hash_initialize`, `fd_boot_hash_update` and `fd_boot_hash_finalize`. The buffer has what was
hashed before. -/
def sha1 (stale : List UInt8) : Hash Sha1.Context where
  init := .ok (Sha1.init stale)
  update c data := .ok (Sha1.update c data)
  finalize c := match Sha1.final c with
    | some hash => .ok hash
    | none => .error none

/-- The callbacks of the decryption, with the local variables, the key and the vector in one memory. -/
def aes (stale : AesCbc.Static) : Decrypt AesCbc.Static where
  init key iv :=
    match AesCbc.decryptInitialize stale (Memory.write (Memory.write (fun _ => 0) 32 key) 48 iv) 0 16 32 48 with
    | some (s, _) => .ok s
    | none => .error none
  update s data :=
    match AesCbc.decryptUpdate s (Memory.write (fun _ => 0) 0 data) 0 data.length (UInt32.ofNat data.length) with
    | some (s, m) => .ok (m.read data.length data.length, s)
    | none => .error none
  finalize _ := .ok ()

/-- The board with the default callbacks. -/
def crypto (u : Setup) (stale : List UInt8) (stale' : AesCbc.Static) :
    Interface Board Sha1.Context AesCbc.Static where
  info := u.interface.info
  hash _ := sha1 stale
  decrypt _ := aes stale'
  executableRead := u.interface.executableRead
  executableFlasher := u.interface.executableFlasher
  updateRead := u.interface.updateRead
  action := u.interface.action

/-- The board with SHA-1 and AES as the standards have them. -/
def standard (u : Setup) : Setup := { u with digest := SecureHash.digest, cipher := AesCbc.standard }

/-! ## One call -/

theorem sha1_update {c : Sha1.Context} {data : List UInt8} (h : Sha1.Holds c data) (u : Setup)
    (stale : List UInt8) {more : List UInt8} (hmore : more.length ≤ 64) :
    Related Sha1.Holds ((sha1 stale).update c more) (u.hash.update data more) :=
  h.update more (by omega)

theorem sha1_finalize {c : Sha1.Context} {data : List UInt8} (h : Sha1.Holds c data) (u : Setup)
    (stale : List UInt8) : Related Eq ((sha1 stale).finalize c) (u.standard.hash.finalize data) := by
  change Related Eq (match Sha1.final c with
    | some hash => .ok hash
    | none => .error none) (.ok (SecureHash.digest data))
  rw [h.final]
  rfl

/-- The static variables have the key and the vector. -/
def Decrypts (s : AesCbc.Static) (c : List UInt8 × List UInt8) : Prop := AesCbc.Holds c.1 c.2 s

theorem aes_init (u : Setup) (stale : AesCbc.Static) {key iv : List UInt8} (hkey : key.length = 16)
    (hiv : iv.length = 16) : Related Decrypts ((aes stale).init key iv) (u.decrypt.init key iv) := by
  have hreadKey : (Memory.write (Memory.write (fun _ => 0) 32 key) 48 iv).read 32 16 = key := by
    rw [Memory.read_write_of_disjoint (Or.inl (Nat.le_refl 48)), AesCbc.read_write_block _ _ hkey]
  have hreadIv : (Memory.write (Memory.write (fun _ => 0) 32 key) 48 iv).read 48 16 = iv :=
    AesCbc.read_write_block _ _ hiv
  have hapart : ∀ a, 32 ≤ a → AesCbc.Apart 0 a 16 ∧ AesCbc.Apart 16 a 16 := by
    intro a ha
    unfold AesCbc.Apart
    omega
  obtain ⟨s, hinitialize, hs⟩ := AesCbc.decryptInitialize_eq stale
    (Memory.write (Memory.write (fun _ => 0) 32 key) 48 iv) (Or.inl (by decide) : AesCbc.Apart 0 16 16)
    (hapart 32 (by decide)) (hapart 48 (by decide))
  rw [hreadKey, hreadIv] at hs
  simp only [aes, hinitialize]
  exact hs

theorem aes_update {s : AesCbc.Static} {c : List UInt8 × List UInt8} (h : Decrypts s c) (u : Setup)
    (stale : AesCbc.Static) {data : List UInt8} (hpos : 0 < data.length) (hmod : data.length % 16 = 0)
    (hle : data.length ≤ 64) :
    Related (fun a b => a.1 = b.1 ∧ b.1.length = data.length ∧ Decrypts a.2 b.2) ((aes stale).update s data)
      (u.standard.decrypt.update c data) := by
  have hlength : data.length = 16 * (data.length / 16) := by omega
  have hword : (UInt32.ofNat data.length).toNat = 16 * (data.length / 16) := by
    rw [UInt32.toNat_ofNat_of_lt' (by omega : data.length < 2 ^ 32)]
    exact hlength
  have hread : (Memory.write (fun _ => 0) 0 data).read 0 (16 * (data.length / 16)) = data := by
    rw [← hlength]
    exact Memory.read_write _ 0 data
  obtain ⟨s', hupdate, hs'⟩ := AesCbc.decryptUpdate_eq h (Memory.write (fun _ => 0) 0 data)
    (by omega : 0 < data.length / 16) hword (Or.inr (by omega) : AesCbc.Apart data.length 0 _)
  rw [hread] at hupdate hs'
  have hout := (Cbc.length_decrypt (c := AesCbc.standard) (k := c.1) (data.length / 16) h.length hlength).1
  rw [← hlength] at hout
  have hback := Memory.read_write (Memory.write (fun _ => 0) 0 data) data.length
    (Cbc.decrypt AesCbc.standard c.1 (data.length / 16) c.2 data).1
  rw [hout] at hback
  simp only [aes, hupdate]
  exact ⟨hback, hout, hs'⟩

/-! ## The checks -/

theorem length_clear (data : List UInt8) (offset length : Nat) : (clear data offset length).length = data.length := by
  simp only [clear, List.length_append, List.length_take, List.length_replicate, List.length_drop]
  omega

/-- The readers give the same blocks, and their states stay related. -/
def SameBlock {ρ ρ' : Type} (P : ρ' → ρ → Prop) (a : List UInt8 × ρ') (b : List UInt8 × ρ) : Prop :=
  a.1 = b.1 ∧ b.1.length ≤ 64 ∧ P a.2 b.2

theorem checkHash_related (u : Setup) {stale : List UInt8} (hstale : stale.length = 64) {ρ ρ' : Type}
    {P : ρ' → ρ → Prop} {read' : ρ' → Nat → Nat → Except Error (List UInt8 × ρ')}
    {read : ρ → Nat → Nat → Except Error (List UInt8 × ρ)}
    (hread : ∀ r' r location length, P r' r → length ≤ 64 →
      Related (SameBlock P) (read' r' location length) (read r location length))
    {r' : ρ'} {r : ρ} (hr : P r' r) (storage range zero : Range) (expected : List UInt8) :
    Related (fun a b => a.1 = b.1 ∧ a.2.1 = b.2.1 ∧ P a.2.2 b.2.2)
      (checkHash (sha1 stale) read' r' storage range zero expected)
      (checkHash u.standard.hash read r storage range zero expected) := by
  have hblock : ∀ location length s t, length ≤ 64 →
      (Sha1.Holds s.1 t.1 ∧ s.2.1 = t.2.1 ∧ P s.2.2 t.2.2) →
      Related (fun a b => Sha1.Holds a.1 b.1 ∧ a.2.1 = b.2.1 ∧ P a.2.2 b.2.2)
        (checkHashBlock (sha1 stale) read' zero location length s)
        (checkHashBlock u.standard.hash read zero location length t) := by
    rintro location length ⟨c, bytes, r'⟩ ⟨data, _, r⟩ hlength ⟨hholds, rfl, hstate⟩
    refine Related.bind (hread r' r location length hstate hlength) ?_
    rintro ⟨block, r'⟩ ⟨_, r⟩ ⟨rfl, hle, hnext⟩
    refine Related.bind (sha1_update hholds u.standard stale ?_) fun c' data' hc' => ⟨hc', rfl, hnext⟩
    split
    · rw [length_clear]
      exact hle
    · exact hle
  rw [checkHash, checkHash]
  split
  · rfl
  refine Related.bind (Sha1.holds_init hstale : Related Sha1.Holds (sha1 stale).init u.standard.hash.init)
    fun c data hc => ?_
  refine Related.bind
    (Blocks.run_related (fun location s t _ _ h => hblock location _ s t (Nat.min_le_right _ _) h) ⟨hc, rfl, hr⟩)
    fun s t h => ?_
  refine Related.bind (sha1_finalize h.1 u stale) ?_
  rintro hash _ rfl
  exact ⟨rfl, h.2⟩

/-- The hash of what the board reads. -/
theorem checkHash_reader (u : Setup) {stale : List UInt8} (hstale : stale.length = 64) (d : Board)
    {read : Board → Nat → Nat → Except Error (List UInt8)}
    (hread : ∀ location length data, read d location length = .ok data → data.length = length)
    (storage range zero : Range) (expected : List UInt8) :
    checkHash (sha1 stale) (Interface.reader d read) () storage range zero expected =
      checkHash u.standard.hash (Interface.reader d read) () storage range zero expected := by
  have hblocks : ∀ (_ _ : Unit) (location length : Nat), True → length ≤ 64 →
      Related (SameBlock fun _ _ => True) (Interface.reader d read () location length)
        (Interface.reader d read () location length) := by
    intro _ _ location length _ hle
    refine related_bind_self fun data hdata => ⟨rfl, ?_, trivial⟩
    rw [hread location length data hdata]
    exact hle
  refine Related.eq (Related.mono
    (checkHash_related u hstale hblocks (show (fun (_ _ : Unit) => True) () () from trivial) storage range zero
      expected) ?_)
  rintro ⟨_, _, _⟩ ⟨_, _, _⟩ ⟨rfl, rfl, -⟩
  rfl

variable {u : Setup} {stale : List UInt8} {stale' : AesCbc.Static} {d : Board}

theorem length_executableRead {location length : Nat} {data : List UInt8}
    (h : u.interface.executableRead d location length = .ok data) : data.length = length := by
  cases h
  exact Nor.length_read _ _ _

theorem length_updateRead {location length : Nat} {data : List UInt8}
    (h : u.interface.updateRead d location length = .ok data) : data.length = length := by
  cases h
  exact Nor.length_read _ _ _

theorem crypto_getExecutableMetadata (hstale : stale.length = 64) :
    (u.crypto stale stale').getExecutableMetadata d = u.standard.interface.getExecutableMetadata d := by
  have hinfo : (u.crypto stale stale').info = u.standard.interface.info := rfl
  have hread : (u.crypto stale stale').executableRead = u.standard.interface.executableRead := rfl
  have hcheck : ∀ storage range zero expected,
      checkHash ((u.crypto stale stale').hash d) (Interface.reader d u.standard.interface.executableRead) ()
          storage range zero expected =
        checkHash (u.standard.interface.hash d) (Interface.reader d u.standard.interface.executableRead) ()
          storage range zero expected :=
    checkHash_reader u hstale d fun location length data h => length_executableRead h
  simp only [Interface.getExecutableMetadata, Interface.checkExecutable, hinfo, hread, hcheck]

/-- What is decrypted, and the state of the decryption. -/
def SameData (a : AesCbc.Static × List UInt8) (b : (List UInt8 × List UInt8) × List UInt8) : Prop :=
  Decrypts a.1 b.1 ∧ a.2 = b.2

theorem crypto_decryptRange (hkey : u.key.length = 16) {metadata : UpdateMetadata}
    (hiv : metadata.initializationVector.length = 16) :
    (u.crypto stale stale').decryptRange d metadata ⟨128, 128⟩ =
      u.standard.interface.decryptRange d metadata ⟨128, 128⟩ := by
  have hblock : ∀ location s t, SameData s t →
      Related SameData ((u.crypto stale stale').decryptBlock d location 16 s)
        (u.standard.interface.decryptBlock d location 16 t) := by
    rintro location ⟨s, out⟩ ⟨c, _⟩ ⟨hs, rfl⟩
    refine related_bind_self (x := u.interface.updateRead d location 16) fun data hdata => ?_
    have hlength := length_updateRead hdata
    refine Related.bind (aes_update hs u stale' (by omega) (by omega) (by omega)) ?_
    rintro ⟨out', s'⟩ ⟨_, c'⟩ ⟨rfl, -, hs'⟩
    exact ⟨hs', rfl⟩
  refine Related.eq ?_
  refine related_bind_self (x := .ok u.key) fun key hok => ?_
  cases hok
  refine Related.bind (aes_init u.standard stale' hkey hiv) fun s c hs => ?_
  refine Related.bind (R := SameData) (Blocks.run_related (fun location s t hlt hmod h => ?_) ⟨hs, rfl⟩) ?_
  · dsimp only at hlt hmod ⊢
    have hlength : min ((128 + 128) % 2 ^ 32 - location) decryptBlockSize = 16 := by
      rw [decryptBlockSize] at hmod ⊢
      omega
    rw [hlength]
    exact hblock location s t h
  · rintro ⟨s, out⟩ ⟨c, _⟩ ⟨hs, rfl⟩
    rfl

theorem readAndDecrypt_related {s : AesCbc.Static} {c : List UInt8 × List UInt8} (h : Decrypts s c)
    (location length : Nat) :
    Related (SameBlock Decrypts) ((u.crypto stale stale').readAndDecrypt d s location length)
      (u.standard.interface.readAndDecrypt d c location length) := by
  refine related_bind_self (x := u.interface.updateRead d location length) fun data hdata => ?_
  have hlength := length_updateRead hdata
  by_cases hblock : length = hashBlockSize
  · have hdata : data.length = 64 := hlength.trans hblock
    rw [if_neg (not_not_intro hblock), if_neg (not_not_intro hblock)]
    refine Related.mono (aes_update h u stale' (by omega) (by omega) (by omega)) ?_
    rintro ⟨out, s'⟩ ⟨_, c'⟩ ⟨rfl, hout, hs'⟩
    exact ⟨rfl, (hout.trans hdata).le, hs'⟩
  · rw [if_pos hblock, if_pos hblock]
    rfl

theorem crypto_checkEncrypted (hstale : stale.length = 64) (hkey : u.key.length = 16) (storage : Range)
    {metadata : UpdateMetadata} (hiv : metadata.initializationVector.length = 16) :
    (u.crypto stale stale').checkEncrypted d storage metadata =
      u.standard.interface.checkEncrypted d storage metadata := by
  rw [Interface.checkEncrypted, Interface.checkEncrypted, crypto_decryptRange hkey hiv]
  refine Related.eq ?_
  refine related_bind_self fun decrypted _ => ?_
  dsimp only
  split
  · rfl
  refine related_bind_self (x := .ok u.key) fun key hok => ?_
  cases hok
  refine Related.bind (aes_init u.standard stale' hkey hiv) fun s c hs => ?_
  refine related_bind_self (x := .ok u.executable) fun executable _ => ?_
  refine Related.bind (checkHash_related u hstale (fun s c location length hs _ =>
    readAndDecrypt_related hs location length) hs _ _ _ _) ?_
  rintro ⟨isValid, data, s'⟩ ⟨_, _, c'⟩ ⟨rfl, rfl, -⟩
  exact related_self _

/-- The hash of what is read of the update. -/
theorem crypto_checkHash (hstale : stale.length = 64) (storage range zero : Range) (expected : List UInt8) :
    checkHash ((u.crypto stale stale').hash d) (Interface.reader d u.standard.interface.updateRead) ()
        storage range zero expected =
      checkHash (u.standard.interface.hash d) (Interface.reader d u.standard.interface.updateRead) ()
        storage range zero expected :=
  checkHash_reader u hstale d (fun _ _ _ h => length_updateRead h) storage range zero expected

theorem crypto_checkUnencrypted (hstale : stale.length = 64) (storage : Range) (metadata : UpdateMetadata) :
    (u.crypto stale stale').checkUnencrypted d storage metadata =
      u.standard.interface.checkUnencrypted d storage metadata := by
  have hread : (u.crypto stale stale').updateRead = u.standard.interface.updateRead := rfl
  simp only [Interface.checkUnencrypted, hread, crypto_checkHash hstale]

theorem crypto_frontUpdate (hstale : stale.length = 64) :
    (u.crypto stale stale').frontUpdate d = u.standard.interface.frontUpdate d := by
  have hinfo : (u.crypto stale stale').info = u.standard.interface.info := rfl
  have hread : (u.crypto stale stale').updateRead = u.standard.interface.updateRead := rfl
  simp only [Interface.frontUpdate, Interface.getUpdateMetadataWith, hinfo, hread, crypto_checkHash hstale]

theorem frontUpdate_inv {storage : Range} {m : UpdateMetadata}
    (h : u.interface.frontUpdate d = .ok (.ok (storage, m))) :
    m.initializationVector.length = 16 ∧ m.executableMetadata.length % 64 = 0 := by
  obtain ⟨storage', -, h⟩ := bind_eq_ok h
  dsimp only at h
  split at h
  · cases h
  split at h
  · cases h
  split at h
  · cases h
  split at h
  · cases h
  split at h
  · cases h
  obtain ⟨bytes, hbytes, h⟩ := bind_eq_ok h
  split at h
  · cases h
  rename_i hmod
  split at h
  · cases h
  split at h
  · cases h
  obtain ⟨trailer, -, h⟩ := bind_eq_ok h
  split at h
  · cases h
  obtain ⟨⟨isValid, data, _⟩, -, h⟩ := bind_eq_ok h
  dsimp only at h
  split at h
  · cases h
  cases h
  exact ⟨length_initializationVector bytes (length_updateRead hbytes), not_not.mp hmod⟩

theorem crypto_getUpdateMetadata (hstale : stale.length = 64) (hkey : u.key.length = 16) :
    (u.crypto stale stale').getUpdateMetadata d = u.standard.interface.getUpdateMetadata d := by
  rw [← Interface.getUpdateMetadataFrom_id, ← Interface.getUpdateMetadataFrom_id, Interface.getUpdateMetadataFrom,
    Interface.getUpdateMetadataFrom, Interface.getUpdateMetadataWith_eq, Interface.getUpdateMetadataWith_eq,
    crypto_frontUpdate hstale]
  refine Interface.andThen_congr fun x hfront => ?_
  obtain ⟨storage, metadata⟩ := x
  have hiv := (frontUpdate_inv hfront).1
  have hencrypted : (u.crypto stale stale').checkEncryptedFrom d id storage metadata =
      u.standard.interface.checkEncryptedFrom d id storage metadata :=
    crypto_checkEncrypted hstale hkey storage hiv
  rw [hencrypted, crypto_checkUnencrypted hstale]

/-- The installations differ in the states of the decryption. -/
structure SameInstalling (s : Installing Board AesCbc.Static) (t : Installing Board (List UInt8 × List UInt8)) :
    Prop where
  decryption : Decrypts s.decryption t.decryption
  device : s.device = t.device
  flashLocation : s.flashLocation = t.flashLocation
  nextEraseLocation : s.nextEraseLocation = t.nextEraseLocation

theorem installBlock_related {s : Installing Board AesCbc.Static}
    {t : Installing Board (List UInt8 × List UInt8)} (h : SameInstalling s t) (size location : Nat) :
    Related SameInstalling ((u.crypto stale stale').installBlock size location 16 s)
      (u.standard.interface.installBlock size location 16 t) := by
  obtain ⟨c', d, flash, next⟩ := s
  obtain ⟨c, _, _, _⟩ := t
  obtain ⟨hc, hdevice, hflash, hnext⟩ := h
  dsimp only at hc hdevice hflash hnext
  subst hdevice hflash hnext
  refine related_bind_self (x := raise (·, d) (u.interface.updateRead d location 16)) fun data hdata => ?_
  have hlength := length_updateRead (raise_eq_ok hdata)
  refine Related.bind ((aes_update hc u stale' (by omega) (by omega) (by omega)).raise (·, d)) ?_
  rintro ⟨out, s'⟩ ⟨_, c'⟩ ⟨rfl, -, hs'⟩
  dsimp only
  by_cases herase : next = flash
  · rw [if_pos herase, if_pos herase]
    refine related_bind_self fun x _ => related_bind_self fun d' _ => ?_
    exact ⟨hs', rfl, rfl, rfl⟩
  · rw [if_neg herase, if_neg herase]
    refine related_bind_self fun x _ => related_bind_self fun d' _ => ?_
    exact ⟨hs', rfl, rfl, rfl⟩

theorem crypto_install (hkey : u.key.length = 16) {metadata : UpdateMetadata}
    (hiv : metadata.initializationVector.length = 16) (hmod : metadata.executableMetadata.length % 64 = 0) :
    (u.crypto stale stale').install d metadata = u.standard.interface.install d metadata := by
  have hstart : Related (fun a b => a.1 = b.1 ∧ b.1.length % 64 = 0 ∧ SameInstalling a.2 b.2)
      ((u.crypto stale stale').installStart d metadata) (u.standard.interface.installStart d metadata) := by
    refine related_bind_self (x := .ok u.key) fun key hok => ?_
    cases hok
    refine Related.bind (aes_init u.standard stale' hkey hiv) fun s c hs => ?_
    exact ⟨rfl, hmod, hs, rfl, rfl, rfl⟩
  refine Related.eq ?_
  refine Related.bind (hstart.raise (·, d)) ?_
  rintro ⟨range, s⟩ ⟨_, t⟩ ⟨rfl, hlength, hst⟩
  refine Related.bind (R := SameInstalling) (Blocks.run_related (fun location s t hlt hrest h => ?_) hst)
    fun s t h => ?_
  · have hblock : min ((range.location + range.length) % 2 ^ 32 - location) decryptBlockSize = 16 := by
      dsimp only at hlength
      rw [decryptBlockSize] at hrest ⊢
      omega
    rw [hblock]
    exact installBlock_related h _ _
  · obtain ⟨hdecryption, hdevice, -, -⟩ := h
    rw [hdevice]
    exact related_self _

/-- `fd_boot_update` with the default callbacks. -/
theorem crypto_update (u : Setup) (stale : List UInt8) (stale' : AesCbc.Static) (d : Board)
    (hstale : stale.length = 64) (hkey : u.key.length = 16) :
    (u.crypto stale stale').update d = u.standard.interface.update d := by
  have hexecutable : ∀ d, (u.crypto stale stale').getExecutableMetadata d =
      u.standard.interface.getExecutableMetadata d := fun d => crypto_getExecutableMetadata hstale
  have hchoose : (u.crypto stale stale').choose d = u.standard.interface.choose d := by
    have haction : (u.crypto stale stale').action = u.standard.interface.action := rfl
    simp only [Interface.choose, hexecutable, crypto_getUpdateMetadata hstale hkey, haction]
  rw [Interface.update, Interface.update, hchoose]
  refine Related.eq (related_bind_self fun x hx => ?_)
  have hchosen := raise_eq_ok hx
  obtain ⟨action, r⟩ := x
  cases action with
  | none => exact related_self _
  | run => exact related_self _
  | install =>
    cases r with
    | error issue => exact related_self _
    | ok y =>
      obtain ⟨metadata, data⟩ := y
      obtain ⟨-, -, hupdate, -⟩ := Interface.choose_install u.standard.interface d hchosen
      obtain ⟨_, bytes, -, -, -, hbytes, hmetadata, hmod, -⟩ := Interface.getUpdateMetadata_inv hupdate
      have hiv : metadata.initializationVector.length = 16 := by
        rw [hmetadata]
        exact length_initializationVector bytes (length_updateRead hbytes)
      have hinstall : (u.crypto stale stale').install d metadata = u.standard.interface.install d metadata :=
        crypto_install hkey hiv hmod
      dsimp only
      rw [hinstall]
      refine related_bind_self fun d' _ => ?_
      rw [hexecutable]
      exact related_self _

theorem crypto_update_sample :
    ({ Sample.setup with key := List.replicate 16 1 }.crypto (List.replicate 64 0) ⟨[], []⟩).update
        (Sample.board ⟨1, 2, 3⟩ fun _ => 0xff) =
      { Sample.setup with key := List.replicate 16 1 }.standard.interface.update
        (Sample.board ⟨1, 2, 3⟩ fun _ => 0xff) :=
  crypto_update _ _ _ _ List.length_replicate List.length_replicate

end Setup
end Boot
end Firefly

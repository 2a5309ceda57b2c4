import Firefly.Boot.Exact
import Firefly.Boot.Stages

/-!
# Firefly.Boot.Relocation

The check of an update does not depend on where the update is stored, apart from one section: `verify` is
the check of the bytes of the storage, with the bytes that are read at 128 for the encrypted metadata,
wherever the storage begins, and `getUpdateMetadata` is `verify` (`getUpdateMetadata_eq`).
-/

namespace Firefly
namespace Boot

open Bytes Result

variable {ρ : Type}

/-! ## Zeros -/

/-- Zeros in the place of 20 bytes that lie in one block of the data. -/
def clearWithin (data : List UInt8) (offset : Nat) : List UInt8 :=
  if offset % 64 + 20 ≤ 64 ∧ offset + 20 ≤ data.length then clear data offset 20 else data

/-- The bytes that are hashed do not depend on the location. -/
theorem zeroBlocks_eq_clearWithin {data : List UInt8} {location n : Nat} (hdata : data.length = 64 * n)
    (hstop : location + 64 * n + 64 ≤ 2 ^ 32) (offset : Nat) :
    zeroBlocks ⟨(location + offset) % 2 ^ 32, 20⟩ location data n = clearWithin data (offset % 2 ^ 32) := by
  have htake : data.take (64 * n) = data := List.take_of_length_le (by omega)
  generalize hfrom : offset % 2 ^ 32 = o
  have ho : o < 2 ^ 32 := by omega
  rcases Nat.lt_or_ge (location + o) (2 ^ 32) with hlt | hge
  · have hmod : (location + offset) % 2 ^ 32 = location + o := by omega
    rw [hmod, clearWithin]
    split
    · rename_i h
      exact zeroBlocks_eq_clear hdata h.1 (by omega) (by omega)
    · rename_i h
      rw [zeroBlocks_of_blocks, htake]
      intro k hk
      have hlen : (field data (64 * k) 64).length = 64 := length_field (by omega)
      rw [zeroBlock, hlen]
      dsimp only
      split
      · -- the end of the field wraps, and the field is beyond the block
        exact clear_beyond (by omega) 20
      · rfl
  · rw [zeroBlocks_before (by dsimp only; omega), htake, clearWithin, if_neg (by omega)]

/-- The check of a range without a block. -/
theorem checkHash_empty (u : Setup) (read : ρ → Nat → Nat → Except Error (List UInt8 × ρ)) (r : ρ)
    {storage range : Range} (hsub : isValidSubrange storage range = true)
    (hempty : (range.location + range.length) % 2 ^ 32 ≤ range.location) (zero : Range)
    (expected : List UInt8) :
    checkHash u.hash read r storage range zero expected = .ok (u.digest [] = expected, [], r) := by
  have hinit : u.hash.init = .ok [] := rfl
  rw [checkHash, hsub, Bool.not_true, if_neg Bool.false_ne_true, bind_of_ok hinit,
    bind_of_ok (Blocks.run_of_le hempty)]
  rfl

/-- What is reported: whether the check failed, and the issue or the metadata. -/
def outcome (r : Except Error (Except UpdateIssue (UpdateMetadata × List UInt8))) :
    Option (Except UpdateIssue UpdateMetadata) :=
  match r with
  | .error _ => none
  | .ok r => some (r.map (·.1))

theorem field_zero (data : List UInt8) (offset : Nat) : field data offset 0 = [] := List.take_zero

theorem uint32_read (m : Nor.Image) (location : Nat) {n a k i : Nat} (hk : i + 4 ≤ k) (hn : a + k ≤ n) :
    uint32 (Nor.read m (location + a) k) i = uint32 (Nor.read m location n) (a + i) := by
  rw [uint32, uint32, field_read _ _ hk, field_read _ _ (by omega), Nat.add_assoc]

namespace Setup

open Interface

variable (u : Setup)

/-! ## The check of the bytes -/

/-- The checks in front of the executable. -/
def front (bytes : List UInt8) : Except Error (Except UpdateIssue UpdateMetadata) :=
  let m := UpdateMetadata.unpack (field bytes 8 76)
  if bytes.length < 8 then .error (some 1)
  else if uint32 bytes 0 ≠ updateMetadataHeaderMagic then .ok (.error .headerMagic)
  else if uint32 bytes 4 ≠ updateMetadataHeaderVersion then .ok (.error .headerVersion)
  else if bytes.length < 84 then .error (some 1)
  else if m.executableMetadata.length % 64 ≠ 0 then .ok (.error .length)
  else if m.executableMetadata.length ≠ executableLength ⟨0, bytes.length⟩ m.encrypted then
    .ok (.error .length)
  else if uint32 bytes (bytes.length - 4) ≠ updateTrailerMagic then .ok (.error .trailerMagic)
  else if u.digest (clear bytes 44 20) ≠ m.hash then .ok (.error .hash)
  else .ok (.ok m)

/-- The encrypted metadata is that of the update. -/
def Matches (window : List UInt8) (m : UpdateMetadata) : Prop :=
  UpdateMetadata.unpack ((u.plain m.initializationVector window).drop 8) =
    { m with hash := List.replicate 20 0 }

instance instDecidableMatches (window : List UInt8) (m : UpdateMetadata) : Decidable (u.Matches window m) :=
  inferInstanceAs (Decidable (_ = _))

/-- The check of an executable that is not encrypted. -/
def checkContent (bytes : List UInt8) (m : UpdateMetadata) : Bool × List UInt8 :=
  let data := field bytes 84 (bytes.length - 192)
  (u.digest data = m.executableMetadata.hash, data)

/-- The check of an executable that is decrypted from the key and the vector on. -/
def checkEncryptedContent (c : List UInt8 × List UInt8) (bytes : List UInt8) (m : UpdateMetadata) :
    Bool × List UInt8 :=
  let data := { u with key := c.1 }.plain c.2 (field bytes 256 (bytes.length - 320))
  let hashed := clearWithin data ((u.executable.metadataOffset + 24) % 2 ^ 32)
  (u.digest hashed = m.executableMetadata.hash, data)

/-- The checks of the executable. -/
def rest (bytes window : List UInt8) (m : UpdateMetadata) :
    Except Error (Except UpdateIssue (UpdateMetadata × List UInt8)) :=
  if m.encrypted then
    if u.Matches window m then conclude m (u.checkEncryptedContent (u.key, m.initializationVector) bytes m)
    else .ok (.error .metadata)
  else conclude m (u.checkContent bytes m)

variable {u} {d : Board} {m : UpdateMetadata} {location n : Nat}

theorem openEncrypted_eq (hiv : m.initializationVector.length = 16) :
    u.interface.openEncrypted d m =
      if u.Matches (Nor.read d.update 128 128) m then
        .ok (.ok ((u.key, m.initializationVector), u.executable))
      else .ok (.error .metadata) := by
  have hwindow := decryptRange_ok (u := u) (d := d) hiv 128 8 (by omega)
  rw [Interface.openEncrypted, bind_of_ok hwindow]
  by_cases hmatch : u.Matches (Nor.read d.update 128 128) m
  · have hunpack : UpdateMetadata.unpack
        ((u.plain m.initializationVector (Nor.read d.update 128 (16 * 8))).drop 8) =
          { m with hash := List.replicate hashDataSize 0 } := hmatch
    dsimp only
    rw [if_pos hmatch, if_neg (not_not_intro hunpack)]
    rfl
  · have hunpack : UpdateMetadata.unpack
        ((u.plain m.initializationVector (Nor.read d.update 128 (16 * 8))).drop 8) ≠
          { m with hash := List.replicate hashDataSize 0 } := hmatch
    dsimp only
    rw [if_neg hmatch, if_pos hunpack]
    rfl

theorem checkFrom_eq (hstop : location + n < 2 ^ 32) (hroom : location + 256 < 2 ^ 32) (hn : 84 ≤ n)
    (hencrypted : m.encrypted = true) (hmod : m.executableMetadata.length % 64 = 0)
    (hlen : m.executableMetadata.length = executableLength ⟨location, n⟩ m.encrypted)
    (key : List UInt8) {iv : List UInt8} (hiv : iv.length = 16) :
    u.interface.checkFrom d ⟨location, n⟩ m u.executable (key, iv) =
      .ok (u.checkEncryptedContent (key, iv) (Nor.read d.update location n) m) := by
  have hread := Nor.length_read d.update location n
  rw [executableLength, hencrypted, if_pos rfl] at hlen
  dsimp only at hlen
  have hlocation : executableLocation ⟨location, n⟩ m = location + 256 := by
    rw [executableLocation]
    dsimp only
    omega
  have hvalid : isValidSubrange ⟨location, n⟩ ⟨location + 256, m.executableMetadata.length⟩ = true := by
    rw [isValidSubrange_iff]
    dsimp only
    omega
  rw [Interface.checkFrom, checkEncryptedContent, hread, hlocation, Nat.add_assoc (location + 256)]
  dsimp only
  rcases Nat.lt_or_ge n 320 with hshort | hlong
  · -- the end of the section wraps, and there is no block
    have hempty : n - 320 = 0 := by omega
    have hplain : { u with key := key }.plain iv [] = [] := rfl
    have hcheck := checkHash_empty u (u.interface.readAndDecrypt d) (key, iv) hvalid
      (by dsimp only; omega) ⟨(location + 256 + (u.executable.metadataOffset + 24)) % 2 ^ 32, hashDataSize⟩
      m.executableMetadata.hash
    rw [hash_interface, bind_of_ok hcheck, hempty, field_zero, hplain, clearWithin, if_neg (by simp)]
    rfl
  · obtain ⟨k, hk⟩ : ∃ k, n = 320 + 64 * k := ⟨(n - 320) / 64, by omega⟩
    have hlength : m.executableMetadata.length = 64 * k := by omega
    have hfield : field (Nor.read d.update location n) 256 (n - 320) =
        Nor.read d.update (location + 256) (64 * k) := by
      rw [field_read _ _ (by omega), hk, Nat.add_sub_cancel_left]
    have hplain : ({ u with key := key }.plain iv (Nor.read d.update (location + 256) (64 * k))).length =
        64 * k := by
      have hplain := length_plain (u := { u with key := key }) (n := 4 * k) hiv
        (Nor.length_read d.update (location + 256) (16 * (4 * k)))
      have h64 : 16 * (4 * k) = 64 * k := by omega
      rwa [h64] at hplain
    rw [hlength] at hvalid ⊢
    have hcheck : checkHash u.hash (u.interface.readAndDecrypt d) (key, iv) ⟨location, n⟩
        ⟨location + 256, 64 * k⟩ ⟨(location + 256 + (u.executable.metadataOffset + 24)) % 2 ^ 32, 20⟩
        m.executableMetadata.hash = _ :=
      checkHash_decrypted (u := { u with key := key }) (d := d) hiv (location + 256) k (by omega) hvalid _ _
    dsimp only at hcheck
    rw [zeroBlocks_eq_clearWithin hplain (by omega)] at hcheck
    rw [hash_interface, hashDataSize, bind_of_ok hcheck, hfield]
    rfl

/-- The sections that are checked do not reach beyond 32 bits from the start of the storage. -/
structure Fits (u : Setup) (bytes : List UInt8) (location : Nat) : Prop where
  header : location + 8 < 2 ^ 32
  metadata : 8 ≤ bytes.length → uint32 bytes 0 = updateMetadataHeaderMagic →
    uint32 bytes 4 = updateMetadataHeaderVersion → location + 84 < 2 ^ 32
  encryptedMetadata : ∀ m, u.front bytes = .ok (.ok m) → m.encrypted = true → location + 256 < 2 ^ 32

/-- The checks in front of the executable are those of the bytes of the storage. -/
theorem frontUpdate_eq (hstorage : u.updateStorage = ⟨location, n⟩) (hstop : location + n < 2 ^ 32)
    (hfits : u.Fits (Nor.read d.update location n) location) :
    u.interface.frontUpdate d =
      andThen (u.front (Nor.read d.update location n)) fun m => .ok (.ok (⟨location, n⟩, m)) := by
  have hread := Nor.length_read d.update location n
  have hroom := hfits.header
  have hmetadataAt : (location + 8) % 2 ^ 32 = location + 8 := Nat.mod_eq_of_lt hroom
  have hstorage' : (u.interface.info d).getUpdateStorage = .ok ⟨location, n⟩ := congrArg Except.ok hstorage
  rw [front, hread, frontUpdate, getUpdateMetadataWith, bind_of_ok hstorage']
  dsimp only
  by_cases hheader : n < 8
  · have hinvalid : isValidSubrange ⟨location, n⟩ ⟨location, 8⟩ = false := by
      rw [← Bool.not_eq_true, isValidSubrange_iff]
      dsimp only
      omega
    rw [hinvalid, if_pos hheader]
    rfl
  have hvalid : isValidSubrange ⟨location, n⟩ ⟨location, 8⟩ = true := by
    rw [isValidSubrange_iff]
    dsimp only
    omega
  have hmagic : uint32 (Nor.read d.update location 8) 0 = uint32 (Nor.read d.update location n) 0 :=
    uint32_read d.update location (a := 0) (by decide) (by omega)
  have hversion : uint32 (Nor.read d.update location 8) 4 = uint32 (Nor.read d.update location n) 4 :=
    uint32_read d.update location (a := 0) (by decide) (by omega)
  rw [hvalid, if_neg hheader, updateRead_interface, Bool.not_true, if_neg Bool.false_ne_true]
  dsimp only
  rw [hmagic, hversion, hmetadataAt]
  by_cases hm : uint32 (Nor.read d.update location n) 0 ≠ updateMetadataHeaderMagic
  · rw [if_pos hm, if_pos hm]
    rfl
  by_cases hv : uint32 (Nor.read d.update location n) 4 ≠ updateMetadataHeaderVersion
  · rw [if_neg hm, if_pos hv, if_neg hm, if_pos hv]
    rfl
  rw [if_neg hm, if_neg hv, if_neg hm, if_neg hv]
  have hroom' := hfits.metadata (by omega) (not_not.mp hm) (not_not.mp hv)
  by_cases hmetadata : n < 84
  · have hinvalid : isValidSubrange ⟨location, n⟩ ⟨location + 8, 76⟩ = false := by
      rw [← Bool.not_eq_true, isValidSubrange_iff]
      dsimp only
      omega
    rw [hinvalid, if_pos hmetadata]
    rfl
  have hvalid' : isValidSubrange ⟨location, n⟩ ⟨location + 8, 76⟩ = true := by
    rw [isValidSubrange_iff]
    dsimp only
    omega
  rw [hvalid', if_neg hmetadata, field_read _ _ (by omega), Bool.not_true, if_neg Bool.false_ne_true,
    updateRead_interface, ok_bind]
  generalize UpdateMetadata.unpack (Nor.read d.update (location + 8) 76) = m
  have hsame : executableLength ⟨0, n⟩ m.encrypted = executableLength ⟨location, n⟩ m.encrypted := rfl
  rw [hsame, hashBlockSize]
  by_cases hmod : m.executableMetadata.length % 64 ≠ 0
  · rw [if_pos hmod, if_pos hmod]
    rfl
  by_cases hlen : m.executableMetadata.length ≠ executableLength ⟨location, n⟩ m.encrypted
  · rw [if_neg hmod, if_pos hlen, if_neg hmod, if_pos hlen]
    rfl
  rw [if_neg hmod, if_neg hlen, if_neg hmod, if_neg hlen]
  obtain ⟨k, hk⟩ : ∃ k, n = 64 * k := by
    refine ⟨n / 64, ?_⟩
    rw [executableLength] at hlen
    dsimp only at hlen
    split at hlen <;> omega
  have htrailerAt : (location + n + (2 ^ 32 - 4)) % 2 ^ 32 = location + (n - 4) := by omega
  have htrailer : uint32 (Nor.read d.update (location + (n - 4)) 4) 0 =
      uint32 (Nor.read d.update location n) (n - 4) := uint32_read _ _ (by decide) (by omega)
  have hhashAt : (location + 44) % 2 ^ 32 = location + 44 := by omega
  have hvalidTrailer : isValidSubrange ⟨location, n⟩ ⟨location + (n - 4), 4⟩ = true := by
    rw [isValidSubrange_iff]
    dsimp only
    omega
  have hself : isValidSubrange ⟨location, n⟩ ⟨location, n⟩ = true :=
    isValidSubrange_iff.mpr ⟨Nat.le_refl _, Nat.le_refl _⟩
  have hcheck := checkHash_ok u (Interface.reader d u.interface.updateRead) (fun _ => ())
    (Nor.length_read d.update location (64 * k)) (fun k hk => readerUpdate_ok d hk rfl) (by omega)
    (hk ▸ hself) ⟨location + 44, 20⟩ m.hash
  rw [zeroBlocks_eq_clear (Nor.length_read _ _ _) (by decide) (by omega) (by omega), ← hk] at hcheck
  rw [htrailerAt, hvalidTrailer, Bool.not_true, if_neg Bool.false_ne_true, updateRead_interface, ok_bind,
    htrailer]
  by_cases htm : uint32 (Nor.read d.update location n) (n - 4) ≠ updateTrailerMagic
  · rw [if_pos htm, if_pos htm]
    rfl
  rw [if_neg htm, if_neg htm, hash_interface, hhashAt, hashDataSize, bind_of_ok hcheck]
  by_cases hhash : u.digest (clear (Nor.read d.update location n) 44 20) ≠ m.hash
  · rw [if_pos hhash, decide_eq_false hhash]
    rfl
  · rw [if_neg hhash, decide_eq_true (not_not.mp hhash)]
    rfl

end Setup

namespace Sample

/-- The package, stored elsewhere. -/
def moved (memory : Nor.Image) : Board := ⟨fun _ => 0xff, store memory 1024 (package ⟨1, 2, 3⟩).2, []⟩

end Sample

end Boot
end Firefly

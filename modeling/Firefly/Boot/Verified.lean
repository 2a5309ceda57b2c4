import Firefly.Boot.Install

/-!
# Firefly.Boot.Verified

The bytes over which the hash of the executable was accepted, and the bytes that are installed. They
are computed on two paths. For an encrypted update both read from the same place and decrypt. Of an
update that is not encrypted the check takes the bytes after the fields of the metadata, at offset 84,
as they are, and the installation those after the block of the metadata, at offset 128, decrypted.
-/

namespace Firefly
namespace Boot

open Bytes Result

variable {Δ H C ρ : Type}

/-! ## What an accepted update went through -/

theorem checkHash_inv {hash : Hash H} {read : ρ → Nat → Nat → Except Error (List UInt8 × ρ)}
    {storage range zero : Range} {expected : List UInt8} {r : ρ} {x : Bool × List UInt8 × ρ}
    (h : checkHash hash read r storage range zero expected = .ok x) :
    isValidSubrange storage range = true ∧
      ((range.location + range.length) % 2 ^ 32 ≤ range.location → x.2.1 = []) := by
  rw [checkHash] at h
  split at h
  · cases h
  · rename_i hvalid
    rw [Bool.not_eq_true, Bool.not_eq_false'] at hvalid
    obtain ⟨h₀, -, h⟩ := bind_eq_ok h
    obtain ⟨s, hs, h⟩ := bind_eq_ok h
    obtain ⟨digest, -, h⟩ := bind_eq_ok h
    cases h
    refine ⟨hvalid, fun hle => ?_⟩
    rw [Blocks.run_of_le hle] at hs
    cases hs
    rfl

namespace Interface

variable {i : Interface Δ H C} {d : Δ} {storage : Range} {m m' : UpdateMetadata} {data : List UInt8}

theorem checkUnencrypted_inv (h : i.checkUnencrypted d storage m = .ok (.ok (m', data))) :
    m' = m ∧ checkHash (i.hash d) (reader d i.updateRead) () storage
      ⟨(storage.location + 84) % 2 ^ 32, m.executableMetadata.length⟩ ⟨0, hashDataSize⟩
      m.executableMetadata.hash = .ok (true, data, ()) := by
  obtain ⟨x, hx, h⟩ := bind_eq_ok h
  obtain ⟨valid, bytes, r⟩ := x
  cases valid with
  | false => cases h
  | true =>
    cases h
    exact ⟨rfl, hx⟩

theorem checkEncrypted_inv (h : i.checkEncrypted d storage m = .ok (.ok (m', data))) :
    m' = m ∧ ∃ key c c', ∃ executable : InfoExecutable, (i.info d).getDecryption = .ok key ∧
      (i.decrypt d).init key m.initializationVector = .ok c ∧
      checkHash (i.hash d) (i.readAndDecrypt d) c storage
        ⟨executableLocation storage m, m.executableMetadata.length⟩
        ⟨(executableLocation storage m + executable.metadataOffset + 24) % 2 ^ 32, hashDataSize⟩
        m.executableMetadata.hash = .ok (true, data, c') := by
  obtain ⟨decrypted, -, h⟩ := bind_eq_ok h
  dsimp only at h
  split at h
  · cases h
  obtain ⟨key, hkey, h⟩ := bind_eq_ok h
  obtain ⟨c, hc, h⟩ := bind_eq_ok h
  obtain ⟨executable, -, h⟩ := bind_eq_ok h
  obtain ⟨x, hx, h⟩ := bind_eq_ok h
  obtain ⟨valid, bytes, c'⟩ := x
  obtain ⟨-, -, h⟩ := bind_eq_ok h
  cases valid with
  | false => cases h
  | true =>
    cases h
    exact ⟨rfl, key, c, c', executable, hkey, hc, hx⟩

/-- The metadata is what was read, and the length that of the storage; the rest depends on the flag. -/
theorem getUpdateMetadata_inv (h : i.getUpdateMetadata d = .ok (.ok (m, data))) :
    ∃ storage bytes, (i.info d).getUpdateStorage = .ok storage ∧
      isValidSubrange storage ⟨storage.location, 8⟩ = true ∧
      isValidSubrange storage ⟨(storage.location + 8) % 2 ^ 32, 76⟩ = true ∧
      i.updateRead d ((storage.location + 8) % 2 ^ 32) 76 = .ok bytes ∧ m = .unpack bytes ∧
      m.executableMetadata.length % hashBlockSize = 0 ∧
      m.executableMetadata.length = executableLength storage m.encrypted ∧
      (m.encrypted = true → i.checkEncrypted d storage m = .ok (.ok (m, data))) ∧
      (m.encrypted = false → i.checkUnencrypted d storage m = .ok (.ok (m, data))) := by
  obtain ⟨storage, hstorage, h⟩ := bind_eq_ok h
  dsimp only at h
  split at h
  · cases h
  rename_i hheader
  split at h
  · cases h
  obtain ⟨header, -, h⟩ := bind_eq_ok h
  split at h
  · cases h
  split at h
  · cases h
  split at h
  · cases h
  rename_i hmetadata
  obtain ⟨bytes, hbytes, h⟩ := bind_eq_ok h
  split at h
  · cases h
  rename_i hmod
  split at h
  · cases h
  rename_i hlen
  simp only [Bool.not_eq_true, Bool.not_eq_false', ne_eq, Decidable.not_not] at hheader hmetadata hmod hlen
  rw [checkUpdate] at h
  dsimp only at h
  split at h
  · cases h
  obtain ⟨trailer, -, h⟩ := bind_eq_ok h
  split at h
  · cases h
  obtain ⟨x, -, h⟩ := bind_eq_ok h
  obtain ⟨valid, bytes', r⟩ := x
  cases valid with
  | false => cases h
  | true =>
    have hm : m = .unpack bytes := by
      change (if (UpdateMetadata.unpack bytes).encrypted = true then _ else _) = _ at h
      split at h
      · exact (checkEncrypted_inv h).1
      · exact (checkUnencrypted_inv h).1
    subst hm
    refine ⟨storage, bytes, hstorage, hheader, hmetadata, hbytes, rfl, hmod, hlen, ?_, ?_⟩
    · intro hencrypted
      simpa only [Bool.not_true, Bool.false_eq_true, if_false, hencrypted, if_true] using h
    · intro hencrypted
      simpa only [Bool.not_true, Bool.false_eq_true, if_false, hencrypted] using h

end Interface

/-- A field before the range is not taken as zeros. -/
theorem zeroBlocks_before {zero : Range} {location : Nat} (h : zero.location < location) (data : List UInt8)
    (n : Nat) : zeroBlocks zero location data n = data.take (64 * n) := by
  refine zeroBlocks_of_blocks fun k _ => ?_
  rw [zeroBlock, if_neg (by omega)]

namespace Setup

variable {u : Setup} {d : Board} {m : UpdateMetadata} {data : List UInt8}

theorem length_initializationVector (bytes : List UInt8) (h : bytes.length = 76) :
    (UpdateMetadata.unpack bytes).initializationVector.length = 16 :=
  length_field (by omega)

/-- What an accepted update says of the storage, which does not reach beyond 32 bits. -/
theorem accepted_storage (hlocation : u.updateStorage.location < 2 ^ 32)
    (hlength : u.updateStorage.length < 2 ^ 32)
    (h : u.interface.getUpdateMetadata d = .ok (.ok (m, data))) :
    u.updateStorage.location + u.updateStorage.length < 2 ^ 32 ∧
      m.initializationVector.length = 16 ∧ m.executableMetadata.length % 64 = 0 ∧
      m.executableMetadata.length = executableLength u.updateStorage m.encrypted := by
  obtain ⟨storage, bytes, hstorage, hheader, hmetadata, hbytes, rfl, hmod, hlen, -, -⟩ :=
    Interface.getUpdateMetadata_inv h
  cases hstorage
  cases hbytes
  rw [isValidSubrange_iff] at hheader hmetadata
  exact ⟨by omega, length_initializationVector _ (Nor.length_read _ _ _), hmod, hlen⟩

/-- The bytes hashed of an encrypted update. -/
theorem accepted_encrypted (hlocation : u.updateStorage.location < 2 ^ 32)
    (hlength : u.updateStorage.length < 2 ^ 32)
    (h : u.interface.getUpdateMetadata d = .ok (.ok (m, data))) (hencrypted : m.encrypted = true) :
    if 320 ≤ u.updateStorage.length then
      data = u.plain m.initializationVector
        (Nor.read d.update (u.updateStorage.location + 256) m.executableMetadata.length)
    else data = [] := by
  obtain ⟨hstop, hiv, hmod, hlen⟩ := accepted_storage hlocation hlength h
  obtain ⟨storage, bytes, hstorage, hheader, hmetadata, hbytes, -, -, -, hcheck, -⟩ :=
    Interface.getUpdateMetadata_inv h
  cases hstorage
  obtain ⟨-, key, c, c', executable, hkey, hc, hx⟩ := Interface.checkEncrypted_inv (hcheck hencrypted)
  cases hkey
  cases hc
  obtain ⟨hvalid, hempty⟩ := checkHash_inv hx
  obtain ⟨n, hn⟩ : ∃ n, m.executableMetadata.length = 64 * n := ⟨m.executableMetadata.length / 64, by omega⟩
  have hvalid' := hvalid
  rw [isValidSubrange_iff, executableLocation] at hvalid'
  rw [executableLocation] at hempty
  rw [hencrypted, executableLength, if_pos rfl] at hlen
  split
  · have hlocation : executableLocation u.updateStorage m = u.updateStorage.location + 256 := by
      rw [executableLocation]
      omega
    rw [hlocation, hn] at hx hvalid
    have hall := checkHash_decrypted (u := u) (d := d) hiv _ _ (by omega) hvalid
      ⟨(u.updateStorage.location + 256 + executable.metadataOffset + 24) % 2 ^ 32, hashDataSize⟩
      m.executableMetadata.hash
    rw [hn]
    exact (congrArg (fun x => x.2.1) (Except.ok.inj (hall.symm.trans hx))).symm
  · have hlen' : m.executableMetadata.length = u.updateStorage.length + (2 ^ 32 - 320) := by omega
    have hlocation : (u.updateStorage.location + u.updateStorage.length + (2 ^ 32 - 64) +
        (2 ^ 32 - m.executableMetadata.length)) % 2 ^ 32 = (u.updateStorage.location + 256) % 2 ^ 32 := by omega
    rw [hlocation] at hvalid' hempty
    dsimp only at hempty
    exact hempty (by omega)

/-- The bytes hashed of an update that is not encrypted. -/
theorem accepted_unencrypted (hlocation : u.updateStorage.location < 2 ^ 32)
    (hlength : u.updateStorage.length < 2 ^ 32)
    (h : u.interface.getUpdateMetadata d = .ok (.ok (m, data))) (hencrypted : m.encrypted = false) :
    if 192 ≤ u.updateStorage.length then
      data = Nor.read d.update (u.updateStorage.location + 84) m.executableMetadata.length
    else data = [] := by
  obtain ⟨hstop, hiv, hmod, hlen⟩ := accepted_storage hlocation hlength h
  obtain ⟨storage, bytes, hstorage, hheader, hmetadata, hbytes, -, -, -, -, hcheck⟩ :=
    Interface.getUpdateMetadata_inv h
  cases hstorage
  obtain ⟨-, hx⟩ := Interface.checkUnencrypted_inv (hcheck hencrypted)
  obtain ⟨hvalid, hempty⟩ := checkHash_inv hx
  obtain ⟨n, hn⟩ : ∃ n, m.executableMetadata.length = 64 * n := ⟨m.executableMetadata.length / 64, by omega⟩
  have hvalid' := hvalid
  rw [isValidSubrange_iff] at hvalid'
  rw [hencrypted, executableLength, if_neg Bool.false_ne_true] at hlen
  split
  · have hlocation : (u.updateStorage.location + 84) % 2 ^ 32 = u.updateStorage.location + 84 := by omega
    rw [hlocation, hn] at hx hvalid
    have hall := checkHash_ok u (Interface.reader d u.interface.updateRead) (fun _ => ())
      (Nor.length_read d.update (u.updateStorage.location + 84) (64 * n))
      (fun k hk => readerUpdate_ok d hk rfl) (by omega) hvalid ⟨0, hashDataSize⟩ m.executableMetadata.hash
    rw [hn]
    exact (congrArg (fun x => x.2.1) (Except.ok.inj (hall.symm.trans hx))).symm
  · dsimp only at hempty
    exact hempty (by omega)

/-- Where both sections of an accepted update are whole, and hold the same after decryption. -/
def SameSections (u : Setup) (d : Board) (m : UpdateMetadata) : Prop :=
  let storage := u.updateStorage
  if m.encrypted then 320 ≤ storage.length
  else 192 ≤ storage.length ∧
    u.plain m.initializationVector
        (Nor.read d.update (storage.location + 128) m.executableMetadata.length) =
      Nor.read d.update (storage.location + 84) m.executableMetadata.length

/-- The installation of whole blocks writes the bytes of one section, decrypted. -/
theorem installs_iff {n : Nat} (data : List UInt8) (hiv : m.initializationVector.length = 16)
    (hlen : m.executableMetadata.length = 16 * n)
    (hsource : executableLocation u.updateStorage m + 16 * n < 2 ^ 32) (hexecutable : u.executable.location < 2 ^ 32) :
    (∃ d' ws, u.interface.install d m = .ok d' ∧ d'.writes = d.writes ++ ws ∧
      Consecutive u.executable.location ws ∧ ws.flatMap (·.2) = data ∧
      data.length = m.executableMetadata.length) ↔
        u.plain m.initializationVector
          (Nor.read d.update (executableLocation u.updateStorage m) (16 * n)) = data := by
  obtain ⟨d₁, hinstall, -, ⟨ws₁, hws, hconsecutive, hbytes⟩, -⟩ := install_ok (d := d) hiv hlen hsource hexecutable rfl
    (F := fun _ _ _ => True) trivial fun _ _ _ _ _ => trivial
  constructor
  · rintro ⟨d', ws, hinstall', hws', -, hdata, -⟩
    cases hinstall.symm.trans hinstall'
    cases List.append_cancel_left (hws.symm.trans hws')
    rw [← hbytes, hdata]
  · rintro rfl
    exact ⟨d₁, ws₁, hinstall, hws, hconsecutive, hbytes, by
      rw [length_plain hiv (Nor.length_read _ _ _), hlen]⟩

/-- The bytes of which the hash was accepted are installed, each once and in order, if and only if the
update is encrypted and its storage holds all the sections, or decrypts to what is at offset 84. -/
theorem installs_verified (hlocation : u.updateStorage.location < 2 ^ 32)
    (hlength : u.updateStorage.length < 2 ^ 32) (hexecutable : u.executable.location < 2 ^ 32)
    (h : u.interface.getUpdateMetadata d = .ok (.ok (m, data))) :
    (∃ d' ws, u.interface.install d m = .ok d' ∧ d'.writes = d.writes ++ ws ∧
      Consecutive u.executable.location ws ∧ ws.flatMap (·.2) = data ∧
      data.length = m.executableMetadata.length) ↔ u.SameSections d m := by
  obtain ⟨hstop, hiv, hmod, hlen⟩ := accepted_storage hlocation hlength h
  obtain ⟨n, hn⟩ : ∃ n, m.executableMetadata.length = 16 * n := ⟨m.executableMetadata.length / 16, by omega⟩
  unfold SameSections
  cases hencrypted : m.encrypted with
  | true =>
    have hdata := accepted_encrypted hlocation hlength h hencrypted
    rw [hencrypted, executableLength, if_pos rfl] at hlen
    rw [if_pos rfl]
    by_cases hsize : 320 ≤ u.updateStorage.length
    · have hsource : executableLocation u.updateStorage m = u.updateStorage.location + 256 := by
        rw [executableLocation]
        omega
      rw [if_pos hsize, hn] at hdata
      rw [installs_iff data hiv hn (by omega) hexecutable, hsource]
      exact ⟨fun _ => hsize, fun _ => hdata.symm⟩
    · rw [if_neg hsize] at hdata
      refine ⟨?_, fun hle => absurd hle hsize⟩
      rintro ⟨d', ws, -, -, -, -, hlenData⟩
      rw [hdata, List.length_nil] at hlenData
      omega
  | false =>
    have hdata := accepted_unencrypted hlocation hlength h hencrypted
    rw [hencrypted, executableLength, if_neg Bool.false_ne_true] at hlen
    rw [if_neg Bool.false_ne_true]
    by_cases hsize : 192 ≤ u.updateStorage.length
    · have hsource : executableLocation u.updateStorage m = u.updateStorage.location + 128 := by
        rw [executableLocation]
        omega
      rw [if_pos hsize] at hdata
      rw [installs_iff data hiv hn (by omega) hexecutable, hsource, ← hn, hdata]
      exact ⟨fun heq => ⟨hsize, heq⟩, And.right⟩
    · rw [if_neg hsize] at hdata
      refine ⟨?_, fun hle => absurd hle.1 hsize⟩
      rintro ⟨d', ws, -, -, -, -, hlenData⟩
      rw [hdata, List.length_nil] at hlenData
      omega

/-- A body that is not encrypted is accepted if and only if the hash of the bytes at offset 84 is that of
the metadata. -/
theorem Frames.unencrypted {n : Nat} {body footer : List UInt8} (h : u.Frames d m n body footer)
    (hencrypted : m.encrypted = false) (hlen : m.executableMetadata.length = 64 * n) :
    (∃ r, u.interface.getUpdateMetadata d = .ok (.ok r)) ↔
      u.digest (field (packMetadata m ++ body) 84 (64 * n)) = m.executableMetadata.hash := by
  have hstop := h.stop
  have hlength : m.executableMetadata.length = executableLength u.updateStorage m.encrypted := by
    rw [hencrypted, executableLength, if_neg Bool.false_ne_true, hlen, h.size]
    omega
  have hlocation : (u.updateStorage.location + 84) % 2 ^ 32 = u.updateStorage.location + 84 :=
    Nat.mod_eq_of_lt (by omega)
  have hdata : Nor.read d.update (u.updateStorage.location + 84) (64 * n) =
      field (packMetadata m ++ body) 84 (64 * n) := by
    rw [h.read (by omega), ← List.append_assoc, field_append_left]
    rw [List.length_append, h.fits.length_packMetadata, h.lengthBody]
    omega
  have htake : (Nor.read d.update (u.updateStorage.location + 84) (64 * n)).take (64 * n) =
      Nor.read d.update (u.updateStorage.location + 84) (64 * n) :=
    List.take_of_length_le (by rw [Nor.length_read])
  have hcheck := checkHash_ok u (Interface.reader d u.interface.updateRead) (fun _ => ())
    (Nor.length_read d.update (u.updateStorage.location + 84) (64 * n)) (fun k hk => readerUpdate_ok d hk rfl)
    (by omega) (h.valid (a := 84) (k := 64 * n) (by omega)) ⟨0, 20⟩ m.executableMetadata.hash
  rw [zeroBlocks_before (by dsimp only; omega), htake, hdata] at hcheck
  rw [h.getUpdateMetadata (by rw [hlen]; exact Nat.mul_mod_right 64 n) hlength, hencrypted,
    if_neg Bool.false_ne_true]
  simp -implicitDefEqProofs only [Interface.checkUnencrypted, hlocation, hlen, hash_interface, hashDataSize, pure_eq]
  rw [bind_of_ok hcheck]
  by_cases heq : u.digest (field (packMetadata m ++ body) 84 (64 * n)) = m.executableMetadata.hash
  · rw [decide_eq_true heq]
    exact ⟨fun _ => heq, fun _ => ⟨_, rfl⟩⟩
  · rw [decide_eq_false heq]
    constructor
    · rintro ⟨r, hr⟩
      cases hr
    · intro h
      exact absurd h heq

end Setup

/-! ## Samples -/

namespace Sample

/-- The sample with a storage for an update that is not encrypted. -/
def plain : Setup := { setup with executable := ⟨4096, 0⟩, updateStorage := ⟨1024, 256⟩ }

/-- Metadata with the hash of 44 zeros and 20 ones, before the hash of the update is there. -/
def plainMetadata : UpdateMetadata :=
  ⟨⟨⟨1, 2, 3⟩, 64, List.replicate 20 20⟩, List.replicate 20 0, 0, initializationVector⟩

def plainBoard : Board :=
  ⟨fun _ => 0xff, store (fun _ => 0xff) 1024 (frame plain.digest plainMetadata (List.replicate 64 1)
    (List.replicate 60 0)), []⟩

end Sample

/-- The bytes of the packaged executable are installed. -/
theorem installs_verified_sample : ∃ m d' ws,
    Sample.setup.interface.install (Sample.board ⟨1, 2, 3⟩ fun _ => 0xff) m = .ok d' ∧
      d'.writes = (Sample.board ⟨1, 2, 3⟩ fun _ => 0xff).writes ++ ws ∧
        Setup.Consecutive 4096 ws ∧ ws.flatMap (·.2) = (Sample.package ⟨1, 2, 3⟩).1 := by
  obtain ⟨-, m, -, hflags, hgetUpdate, -⟩ := Sample.package_valid fun _ => 0xff
  have hsame : Sample.setup.SameSections (Sample.board ⟨1, 2, 3⟩ fun _ => 0xff) m := by
    have hencrypted : m.encrypted = true := by
      rw [UpdateMetadata.encrypted, hflags]
      decide
    rw [Setup.SameSections, hencrypted, if_pos rfl]
    decide
  obtain ⟨d', ws, hinstall, hwrites, hconsecutive, hbytes, -⟩ :=
    (Setup.installs_verified (by decide) (by decide) (by decide) hgetUpdate).mpr hsame
  exact ⟨m, d', ws, hinstall, hwrites, hconsecutive, hbytes⟩

/-- An accepted update that is not encrypted, of which other bytes are installed. -/
theorem installs_other : ∃ m data,
    Sample.plain.interface.getUpdateMetadata Sample.plainBoard = .ok (.ok (m, data)) ∧
    ¬ ∃ d' ws, Sample.plain.interface.install Sample.plainBoard m = .ok d' ∧
      d'.writes = Sample.plainBoard.writes ++ ws ∧ Setup.Consecutive 4096 ws ∧
        ws.flatMap (·.2) = data ∧ data.length = m.executableMetadata.length := by
  have hlen : (frame Sample.plain.digest Sample.plainMetadata (List.replicate 64 1)
      (List.replicate 60 0)).length = 256 := by decide +kernel
  have hread := read_store_self (fun _ => 0xff) 1024 (frame Sample.plain.digest Sample.plainMetadata
    (List.replicate 64 1) (List.replicate 60 0))
  rw [hlen] at hread
  obtain ⟨digest, hframes⟩ := Setup.frames_frame (u := Sample.plain) (d := Sample.plainBoard) (n := 1)
    (fun _ => List.length_replicate) ⟨⟨by decide, by decide, by decide⟩, by decide, by decide, by decide, by decide,
      by decide⟩ rfl (List.length_replicate) (List.length_replicate) rfl (by decide) hread
  generalize hm : { Sample.plainMetadata with hash := digest } = m at hframes
  have hencrypted : m.encrypted = false := by
    rw [← hm]
    show Nat.testBit 0 0 = false
    decide
  have hlength : m.executableMetadata.length = 64 * 1 := by
    rw [← hm]
    rfl
  have hiv : m.initializationVector = Sample.initializationVector := by
    rw [← hm]
    rfl
  -- the bytes at offset 84 and those at offset 128
  have hhashed : Nor.read Sample.plainBoard.update (1024 + 84) 64 = List.replicate 44 0 ++ List.replicate 20 1 := by
    decide +kernel
  have hbody : Nor.read Sample.plainBoard.update (1024 + 128) 64 = List.replicate 64 1 := by decide +kernel
  have hfield : field (packMetadata m ++ List.replicate 64 1) 84 64 =
      List.replicate 44 0 ++ List.replicate 20 1 := by
    have hlocation : Sample.plain.updateStorage.location = 1024 := rfl
    have hfield := hframes.read (a := 84) (k := 64) (by decide)
    rw [hlocation] at hfield
    rw [hhashed] at hfield
    rw [← List.append_assoc, field_append_left] at hfield
    · exact hfield.symm
    · rw [List.length_append, hframes.fits.length_packMetadata, List.length_replicate]
      decide
  obtain ⟨⟨m', data⟩, hget⟩ := (hframes.unencrypted hencrypted hlength).mpr (by
    rw [hfield, ← hm]
    show Sample.plain.digest (List.replicate 44 0 ++ List.replicate 20 1) = List.replicate 20 20
    decide +kernel)
  obtain rfl : m' = m := by
    obtain ⟨storage, bytes, hstorage, -, -, hbytes, rfl, -⟩ := Interface.getUpdateMetadata_inv hget
    cases hstorage
    cases hbytes
    exact hframes.fields
  refine ⟨m', data, hget, ?_⟩
  have hdata := Setup.accepted_unencrypted (by decide) (by decide) hget hencrypted
  rw [if_pos (by decide), hlength] at hdata
  have hsource : executableLocation Sample.plain.updateStorage m' = 1024 + 128 := by
    rw [executableLocation, hlength]
    decide
  have hiff := Setup.installs_iff (u := Sample.plain) (d := Sample.plainBoard) (n := 4) data
    (hiv ▸ by decide) hlength (by rw [hsource]; decide) (by decide)
  rw [hsource, hiv] at hiff
  refine hiff.not.mpr ?_
  rw [hdata]
  show Sample.plain.plain Sample.initializationVector (Nor.read Sample.plainBoard.update (1024 + 128) 64) ≠
    Nor.read Sample.plainBoard.update (1024 + 84) 64
  rw [hbody, hhashed]
  decide +kernel

end Boot
end Firefly

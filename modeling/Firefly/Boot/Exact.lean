import Firefly.Boot.SelfHeal

/-!
# Firefly.Boot.Exact

What the checks of `fd_boot.c`, which count in 32 bits, say in whole numbers. A valid update has exactly
the sections that its length is computed from if and only if its storage has room for the fixed ones
(`updateWellFormed_iff`). For a valid executable the length in the metadata has to reach beyond the metadata
and must not wrap, and the field of the hash must lie in one block (`checked_iff`).
-/

namespace Firefly
namespace Boot

open Bytes Result

variable {Δ H C ρ : Type}

/-! ## Updates -/

/-- The bytes in front of the executable: the metadata, and the encrypted metadata. -/
def UpdateMetadata.front (m : UpdateMetadata) : Nat := 128 + if m.encrypted then 128 else 0

/-- Where the executable begins, by whole numbers. -/
def UpdateMetadata.start (m : UpdateMetadata) (storage : Range) : Int :=
  storage.location + storage.length - 64 - m.executableMetadata.length

/-- The storage is the metadata, the executable and the footer, without a gap and without overlap. -/
structure UpdateMetadata.WellFormed (m : UpdateMetadata) (storage : Range) : Prop where
  length : (storage.length : Int) = m.executableMetadata.length + 64 + m.front
  inside : storage.location ≤ m.start storage ∧
    m.start storage + m.executableMetadata.length ≤ storage.location + storage.length
  metadata : storage.location + 128 ≤ m.start storage
  encryptedMetadata : m.encrypted = true → storage.location + 128 + 128 ≤ m.start storage
  footer : m.start storage + m.executableMetadata.length ≤ storage.location + storage.length - 64

/-- The length of a valid update, in 32 bits, is the exact one if and only if the storage is as long as
the metadata and the footer at least. -/
theorem updateWellFormed_iff {i : Interface Δ H C} {d : Δ} {storage : Range} {m : UpdateMetadata}
    {data : List UInt8} (hstorage : (i.info d).getUpdateStorage = .ok storage)
    (hstop : storage.location + storage.length ≤ 2 ^ 32)
    (h : i.getUpdateMetadata d = .ok (.ok (m, data))) :
    m.WellFormed storage ↔ 64 + m.front ≤ storage.length := by
  obtain ⟨storage', bytes, hstorage', -, -, -, -, -, hlen, -, -⟩ := Interface.getUpdateMetadata_inv h
  obtain rfl : storage' = storage := Except.ok.inj (hstorage'.symm.trans hstorage)
  have hexact : m.executableMetadata.length =
      (storage'.length + 2 ^ 32 + 2 ^ 32 - (64 + m.front)) % 2 ^ 32 := by
    rw [hlen, executableLength, UpdateMetadata.front]
    cases m.encrypted with
    | true => simp only [if_true]; omega
    | false => simp only [Bool.false_eq_true, if_false]; omega
  have hfront : m.front ≤ 256 := by
    unfold UpdateMetadata.front
    split <;> omega
  constructor
  · intro hformed
    have hlength := hformed.length
    omega
  · intro hle
    have hlength : (storage'.length : Int) = m.executableMetadata.length + 64 + m.front := by omega
    have hstart : m.start storage' = storage'.location + m.front := by
      rw [UpdateMetadata.start]
      omega
    have hmetadata : 128 ≤ m.front := Nat.le_add_right _ _
    have hencrypted : m.encrypted = true → m.front = 256 := by
      intro he
      rw [UpdateMetadata.front, if_pos he]
    refine ⟨hlength, ⟨?_, ?_⟩, ?_, ?_, ?_⟩
    · omega
    · omega
    · omega
    · intro he
      have hfront := hencrypted he
      omega
    · omega

theorem wellFormed_sample : ∃ m data,
    Sample.setup.interface.getUpdateMetadata (Sample.board ⟨1, 2, 3⟩ fun _ => 0xff) = .ok (.ok (m, data)) ∧
      m.WellFormed ⟨0, 512⟩ := by
  obtain ⟨-, m, -, hflags, hget, -⟩ := Sample.package_valid fun _ => 0xff
  have hfront : m.front = 256 := by
    rw [UpdateMetadata.front, UpdateMetadata.encrypted, hflags, if_pos (by decide)]
  have hstorage : (Sample.setup.interface.info (Sample.board ⟨1, 2, 3⟩ fun _ => 0xff)).getUpdateStorage =
      .ok ⟨0, 512⟩ := rfl
  exact ⟨m, _, hget, (updateWellFormed_iff hstorage (by simp) hget).mpr (by rw [hfront]; simp)⟩

namespace Sample

/-- A storage with room for the metadata alone. -/
def short : Setup := { setup with updateStorage := ⟨0, 128⟩ }

/-- The length is that of the storage without the fixed sections, in 32 bits. -/
def shortMetadata : UpdateMetadata :=
  ⟨⟨⟨1, 2, 3⟩, 0xffffffc0, List.replicate 20 0⟩, List.replicate 20 165, 0, initializationVector⟩

def shortBoard : Board :=
  ⟨fun _ => 0xff, store (fun _ => 0xff) 0
    ((packMetadata shortMetadata).take 124 ++ leBytes 4 updateTrailerMagic), []⟩

end Sample

/-- A storage of 128 bytes is accepted with an executable of nearly 2 ^ 32. -/
theorem not_wellFormed :
    (Sample.short.interface.info Sample.shortBoard).getUpdateStorage = .ok ⟨0, 128⟩ ∧
      Sample.short.interface.getUpdateMetadata Sample.shortBoard = .ok (.ok (Sample.shortMetadata, [])) ∧
      ¬ Sample.shortMetadata.WellFormed ⟨0, 128⟩ := by
  refine ⟨rfl, by decide +kernel, ?_⟩
  intro h
  have hlength := h.length
  simp [Sample.shortMetadata] at hlength
  omega

/-! ## Executables -/

/-- A field that goes across the end of a block is not taken as zeros. -/
theorem zeroBlocks_across {location offset length : Nat} (hblock : 64 < offset % 64 + length)
    (hstop : location + offset + length < 2 ^ 32) (data : List UInt8) (n : Nat) :
    zeroBlocks ⟨location + offset, length⟩ location data n = data.take (64 * n) := by
  refine zeroBlocks_of_blocks fun k hk => ?_
  have hlen : (field data (64 * k) 64).length ≤ 64 := List.length_take_le _ _
  have hmod : (location + offset + length) % 2 ^ 32 = location + offset + length := Nat.mod_eq_of_lt hstop
  rw [zeroBlock]
  dsimp only
  rw [hmod, if_neg (by omega)]

namespace Setup

variable {u : Setup} {d : Board} {m : ExecutableMetadata}

/-- The bytes of an executable of this length. -/
def executableBytes (u : Setup) (d : Board) (length : Nat) : List UInt8 :=
  Nor.read d.flash u.executable.location length

/-- The same with zeros in the place of the hash. -/
def clearedBytes (u : Setup) (d : Board) (length : Nat) : List UInt8 :=
  clear (u.executableBytes d length) (u.executable.metadataOffset + 24) 20

/-- The executable was checked: it lies in the storage with its metadata and its trailer, and the hash is
that of its bytes. -/
structure Checked (u : Setup) (d : Board) (m : ExecutableMetadata) : Prop where
  inside : u.executableStorage.location ≤ u.executable.location ∧
    u.executable.location + m.length ≤ u.executableStorage.location + u.executableStorage.length
  metadata : u.executable.metadataOffset + 44 ≤ m.length
  trailer : uint32 (Nor.read d.flash (u.executable.location + m.length - 4) 4) 0 = executableTrailerMagic
  hash : u.digest (u.clearedBytes d m.length) = m.hash

/-- The length that the flash holds for the executable. -/
def storedLength (u : Setup) (d : Board) : Nat :=
  uint32 (Nor.read d.flash (u.executable.location + u.executable.metadataOffset + 8) 36) 12

/-- The stored length covers the metadata and does not wrap, and the field of the hash lies in one block,
unless the digest is the same with it and without. -/
def Covered (u : Setup) (d : Board) : Prop :=
  u.executable.location + u.storedLength d < 2 ^ 32 ∧
    u.executable.metadataOffset + 44 ≤ u.storedLength d ∧
      ((u.executable.metadataOffset + 24) % 64 + 20 ≤ 64 ∨
        u.digest (u.clearedBytes d (u.storedLength d)) = u.digest (u.executableBytes d (u.storedLength d)))

/-- The hash that was compared, of an executable that covers its metadata. -/
theorem digest_of_valid (hstop : u.executable.location + m.length < 2 ^ 32)
    (hmetadata : u.executable.metadataOffset + 44 ≤ m.length)
    (h : u.interface.getExecutableMetadata d = .ok (.ok m)) :
    m.hash = if (u.executable.metadataOffset + 24) % 64 + 20 ≤ 64 then u.digest (u.clearedBytes d m.length)
      else u.digest (u.executableBytes d m.length) := by
  obtain ⟨-, -, -, -, data, -, -, hmod, -, -, hcheck⟩ := Interface.getExecutableMetadata_inv rfl rfl h
  have hvalid := (checkHash_inv hcheck).1
  obtain ⟨n, hn⟩ : ∃ n, m.length = 64 * n := ⟨m.length / 64, by rw [hashBlockSize] at hmod; omega⟩
  have hzero : (u.executable.location + u.executable.metadataOffset + 24) % 2 ^ 32 =
      u.executable.location + (u.executable.metadataOffset + 24) := by omega
  rw [hn] at hcheck hvalid hstop hmetadata ⊢
  rw [hzero] at hcheck
  have hlen : (u.executableBytes d (64 * n)).length = 64 * n := Nor.length_read _ _ _
  have hall := checkHash_ok u (Interface.reader d u.interface.executableRead) (fun _ => ()) hlen
    (fun k hk => by
      rw [executableBytes, field_read _ _ (by omega)]
      rfl)
    hstop hvalid ⟨u.executable.location + (u.executable.metadataOffset + 24), 20⟩ m.hash
  have hequal := congrArg Prod.fst (Except.ok.inj (hall.symm.trans hcheck))
  dsimp only at hequal
  rw [decide_eq_true_eq] at hequal
  rw [← hequal]
  by_cases hblock : (u.executable.metadataOffset + 24) % 64 + 20 ≤ 64
  · rw [if_pos hblock, zeroBlocks_eq_clear hlen hblock (by omega) hstop, clearedBytes]
  · rw [if_neg hblock, zeroBlocks_across (by omega) (by omega),
      List.take_of_length_le (by omega)]

/-- What was checked of a valid executable, where its length does not wrap. -/
theorem checked_iff (hstorage : u.executableStorage.location + u.executableStorage.length ≤ 2 ^ 32)
    (hexecutable : u.executable.location + u.executable.metadataOffset < 2 ^ 32)
    (h : u.interface.getExecutableMetadata d = .ok (.ok m)) : u.Checked d m ↔ u.Covered d := by
  obtain ⟨hheader, hmetadata, bytes, trailer, data, hbytes, hm, -, htrailer, hmagic, hcheck⟩ :=
    Interface.getExecutableMetadata_inv rfl rfl h
  have hvalid := (checkHash_inv hcheck).1
  rw [isValidSubrange_iff] at hheader hmetadata hvalid
  -- a storage that ends at 2 ^ 32 has room for the header or for the metadata, not for both
  have hend : u.executableStorage.location + u.executableStorage.length < 2 ^ 32 := by omega
  have hlength : u.executable.location + u.executable.metadataOffset + 8 < 2 ^ 32 →
      m.length = u.storedLength d := by
    intro hlt
    rw [Nat.mod_eq_of_lt hlt, executableRead_interface] at hbytes
    rw [hm, ← Except.ok.inj hbytes]
    rfl
  constructor
  · rintro ⟨hinside, hcover, -, hhash⟩
    have hstop : u.executable.location + m.length < 2 ^ 32 := by omega
    have hdigest := digest_of_valid hstop hcover h
    rw [Covered, ← hlength (by omega)]
    refine ⟨hstop, hcover, ?_⟩
    by_cases hblock : (u.executable.metadataOffset + 24) % 64 + 20 ≤ 64
    · exact Or.inl hblock
    · rw [if_neg hblock] at hdigest
      exact Or.inr (hhash.trans hdigest)
  · intro hcovered
    obtain ⟨hstop, hcover, hblock⟩ := hcovered
    have hstored := hlength (by omega)
    rw [← hstored] at hstop hcover hblock
    have hdigest := digest_of_valid hstop hcover h
    have htrailerAt : (u.executable.location + m.length + (2 ^ 32 - 4)) % 2 ^ 32 =
        u.executable.location + m.length - 4 := by omega
    rw [htrailerAt, executableRead_interface] at htrailer
    refine ⟨⟨hvalid.1, ?_⟩, hcover, ?_, ?_⟩
    · omega
    · rw [Except.ok.inj htrailer]
      exact hmagic
    · by_cases hone : (u.executable.metadataOffset + 24) % 64 + 20 ≤ 64
      · rw [if_pos hone] at hdigest
        exact hdigest.symm
      · rw [if_neg hone] at hdigest
        rw [hdigest]
        exact hblock.resolve_left hone

end Setup

namespace Sample

def boardOf (flash : Nor.Image) : Board := ⟨flash, fun _ => 0xff, []⟩

/-- The flash with the executable of the package. -/
def flashed : Board := boardOf (store (fun _ => 0xff) 4096 (package ⟨1, 2, 3⟩).1)

/-- A block with a trailer. The metadata, which is in the block after it, has the length of the one block
and its hash. -/
def ahead : Board :=
  boardOf (store (fun _ => 0xff) 4096 (List.replicate 60 0 ++ leBytes 4 executableTrailerMagic ++
    packHeader executableMetadataHeaderMagic executableMetadataHeaderVersion ⟨1, 2, 3⟩ 64 ++
      List.replicate 20 0x9e))

end Sample

theorem checked_iff_sample : ∃ m, Sample.setup.interface.getExecutableMetadata Sample.flashed = .ok (.ok m) ∧
    Sample.setup.Checked Sample.flashed m := by
  have hvalid : ∃ m, Sample.setup.interface.getExecutableMetadata Sample.flashed = .ok (.ok m) :=
    ⟨⟨⟨1, 2, 3⟩, 192, List.replicate 20 208⟩, by decide +kernel⟩
  obtain ⟨m, hm⟩ := hvalid
  have hstored : Sample.setup.storedLength Sample.flashed = 192 := by decide +kernel
  refine ⟨m, hm, (Setup.checked_iff (by decide) (by decide) hm).mpr ?_⟩
  rw [Setup.Covered, hstored]
  decide

/-- A length that does not reach to the metadata that it was read from. -/
theorem not_checked : ∃ m, Sample.setup.interface.getExecutableMetadata Sample.ahead = .ok (.ok m) ∧
    ¬ Sample.setup.Checked Sample.ahead m := by
  refine ⟨⟨⟨1, 2, 3⟩, 64, List.replicate 20 0x9e⟩, by decide +kernel, ?_⟩
  intro h
  have hmetadata := h.metadata
  simp [Sample.setup] at hmetadata

end Boot
end Firefly

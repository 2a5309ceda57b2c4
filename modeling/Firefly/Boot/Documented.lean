import Firefly.Boot.Verified

/-!
# Firefly.Boot.Documented

An update that is not encrypted, in the format that `fd_boot.h` documents: 128 bytes of metadata, the
executable as it is, and the footer. The boot loader takes 84 bytes for the metadata and no hash field
of the executable for zero, so it accepts the update only where the two hashes happen to be the same.
-/

namespace Firefly
namespace Boot

open Bytes Result

/-- The documented executable, its hash calculated with the hash as zero. -/
def documentedExecutable (digest : List UInt8 → List UInt8) (before after : List UInt8) (version : Version)
    (length : Nat) : List UInt8 :=
  sections before after version length (digest (sections before after version length (List.replicate 20 0)))

/-- The documented metadata, with the hash of the update as zero. -/
def documentedMetadata (digest : List UInt8 → List UInt8) (before after : List UInt8) (version : Version)
    (length flags : Nat) (initializationVector : List UInt8) : UpdateMetadata :=
  ⟨⟨version, length, digest (sections before after version length (List.replicate 20 0))⟩,
    List.replicate 20 0, flags, initializationVector⟩

namespace Setup

variable {u : Setup} {d : Board} {n : Nat} {before after footer iv : List UInt8} {version : Version} {flags : Nat}

theorem frames_documented (hdigest : ∀ data, (u.digest data).length = 20) (hfits : version.Fits)
    (hflags : flags < 2 ^ 32) (hiv : iv.length = 16) (hfooter : footer.length = 60)
    (hlen : (documentedExecutable u.digest before after version (64 * n)).length = 64 * n)
    (hsize : u.updateStorage.length = 192 + 64 * n)
    (hstop : u.updateStorage.location + (192 + 64 * n) < 2 ^ 32)
    (hupdate : Nor.read d.update u.updateStorage.location (192 + 64 * n) =
      frame u.digest (documentedMetadata u.digest before after version (64 * n) flags iv)
        (documentedExecutable u.digest before after version (64 * n)) footer) :
    ∃ digest, u.Frames d
      { documentedMetadata u.digest before after version (64 * n) flags iv with hash := digest } n
      (documentedExecutable u.digest before after version (64 * n)) footer := by
  have hlt : 64 * n < 2 ^ 32 := by omega
  exact frames_frame hdigest ⟨hfits, hlt, hdigest _, List.length_replicate, hflags, hiv⟩ rfl hlen hfooter hsize
    hstop hupdate

/-- The range that the boot loader takes for the executable begins in the metadata. -/
theorem field_documented {digest executable : List UInt8} (hdigest : ∀ data, (u.digest data).length = 20)
    (hiv : iv.length = 16) (hlen : digest.length = 20) (hmin : 48 ≤ 64 * n) :
    field (packMetadata { documentedMetadata u.digest before after version (64 * n) flags iv with
        hash := digest } ++ executable) 84 (64 * n) =
      List.replicate 44 0 ++ executable.take (64 * n - 44) := by
  let front := packHeader updateMetadataHeaderMagic updateMetadataHeaderVersion version (64 * n) ++
    (documentedMetadata u.digest before after version (64 * n) flags iv).executableMetadata.hash ++ digest ++
      leBytes 4 flags ++ iv
  have hfront : front.length = 84 := by
    simp [front, documentedMetadata, hdigest, hlen, hiv]
  have hsplit : packMetadata { documentedMetadata u.digest before after version (64 * n) flags iv with
      hash := digest } ++ executable = front ++ (List.replicate 44 0 ++ executable) := by
    have hzeros : List.replicate 44 (0 : UInt8) = leBytes 4 0 ++ List.replicate 40 0 := by decide
    rw [hzeros]
    simp only [packMetadata, front, documentedMetadata, List.append_assoc]
  rw [hsplit, field_append_right _ (by omega), hfront, Nat.sub_self, field, List.drop_zero, List.take_append,
    List.length_replicate, List.take_of_length_le (by simp; omega)]

/-- A documented update that is not encrypted, anywhere in the storage, is accepted if and only if the 44
last bytes of the metadata with the executable up to its 44 last bytes have the hash of the executable. -/
theorem accepts_documented (hdigest : ∀ data, (u.digest data).length = 20) (hfits : version.Fits)
    (hflags : flags < 2 ^ 32) (hunencrypted : flags.testBit 0 = false) (hiv : iv.length = 16)
    (hfooter : footer.length = 60)
    (hlen : (documentedExecutable u.digest before after version (64 * n)).length = 64 * n)
    (hsize : u.updateStorage.length = 192 + 64 * n)
    (hstop : u.updateStorage.location + (192 + 64 * n) < 2 ^ 32)
    (hupdate : Nor.read d.update u.updateStorage.location (192 + 64 * n) =
      frame u.digest (documentedMetadata u.digest before after version (64 * n) flags iv)
        (documentedExecutable u.digest before after version (64 * n)) footer) :
    (∃ r, u.interface.getUpdateMetadata d = .ok (.ok r)) ↔
      u.digest (List.replicate 44 0 ++
          (documentedExecutable u.digest before after version (64 * n)).take (64 * n - 44)) =
        u.digest (sections before after version (64 * n) (List.replicate 20 0)) := by
  have hmin : 48 ≤ 64 * n := by
    rw [← hlen, documentedExecutable, length_sections, hdigest]
    omega
  obtain ⟨digest, hframes⟩ :=
    frames_documented hdigest hfits hflags hiv hfooter hlen hsize hstop hupdate
  have hiff := hframes.unencrypted hunencrypted rfl
  rw [field_documented hdigest hiv hframes.fits.hash hmin] at hiff
  exact hiff

end Setup

/-! ## Samples -/

namespace Sample

/-- The end of an executable, with a byte to choose. -/
def after (b : UInt8) : List UInt8 := b :: List.replicate 15 0

def documented (b : UInt8) : List UInt8 :=
  frame plain.digest (documentedMetadata plain.digest [] (after b) ⟨1, 2, 3⟩ 64 0 initializationVector)
    (documentedExecutable plain.digest [] (after b) ⟨1, 2, 3⟩ 64) (List.replicate 60 0)

def documentedBoard (b : UInt8) : Board := ⟨fun _ => 0xff, store (fun _ => 0xff) 1024 (documented b), []⟩

theorem length_documented (b : UInt8) : (documented b).length = 256 := by
  have hexecutable : (documentedExecutable plain.digest [] (after b) ⟨1, 2, 3⟩ 64).length = 64 := by
    rw [documentedExecutable, length_sections]
    rfl
  have hmetadata (m : UpdateMetadata) (h : m.executableMetadata.hash.length = 20) (h' : m.hash.length = 20)
      (h'' : m.initializationVector.length = 16) : (packMetadata m).length = 128 := by
    simp only [packMetadata, List.length_append, length_packHeader, h, h', h'', length_leBytes,
      List.length_replicate]
  rw [documented, frame, List.length_append, List.length_append, List.length_append, hexecutable,
    hmetadata _ List.length_replicate List.length_replicate List.length_replicate, List.length_replicate,
    length_leBytes]

theorem read_documented (b : UInt8) :
    Nor.read (documentedBoard b).update 1024 256 = documented b := by
  have hread := read_store_self (fun _ => 0xff) 1024 (documented b)
  rw [length_documented] at hread
  exact hread

end Sample

/-- With this byte the two sums are the same. -/
theorem accepts_documented_sample : ∃ r,
    Sample.plain.interface.getUpdateMetadata (Sample.documentedBoard 34) = .ok (.ok r) := by
  have hiff := Setup.accepts_documented (u := Sample.plain) (d := Sample.documentedBoard 34) (n := 1)
    (fun _ => List.length_replicate)
    ⟨by decide, by decide, by decide⟩ (by decide) (by decide) (by decide) (List.length_replicate) (by decide) rfl
    (by decide) (Sample.read_documented 34)
  exact hiff.mpr (by decide +kernel)

/-- With another they are not, and the documented update is refused. -/
theorem refuses_documented : Nor.read (Sample.documentedBoard 0).update 1024 256 = Sample.documented 0 ∧
    ¬ ∃ r, Sample.plain.interface.getUpdateMetadata (Sample.documentedBoard 0) = .ok (.ok r) := by
  refine ⟨Sample.read_documented 0, ?_⟩
  obtain ⟨digest, hframes⟩ := Setup.frames_documented (u := Sample.plain) (n := 1) (fun _ => List.length_replicate)
    ⟨by decide, by decide, by decide⟩ (by decide) (by decide) (List.length_replicate) (by decide) rfl (by decide)
    (Sample.read_documented 0)
  rw [hframes.unencrypted (show Nat.testBit 0 0 = false by decide) rfl,
    Setup.field_documented (fun _ => List.length_replicate) (by decide) hframes.fits.hash (by decide)]
  show Sample.plain.digest (List.replicate 44 0 ++ List.take 20 (documentedExecutable Sample.plain.digest []
    (Sample.after 0) ⟨1, 2, 3⟩ 64)) ≠ Sample.plain.digest (sections [] (Sample.after 0) ⟨1, 2, 3⟩ 64
      (List.replicate 20 0))
  decide +kernel

end Boot
end Firefly

import Firefly.Boot.Verified

/-!
# Firefly.Boot.Rollback

Which version an update leaves behind. `fd_boot_get_action` compares the version of the executable with
the one in the metadata of the update, and nothing compares it with the one in the image that is
installed, so that an update with a newer version outside and an older one inside rolls back.
-/

namespace Firefly
namespace Boot

open Bytes Result

namespace Setup

variable (u : Setup) (d : Board)

/-- The flash and the next location to erase after some blocks of an image, of which the length is that
of the metadata. -/
def flashed (length : Nat) (image : List UInt8) : Nat → Nor.Image × Nat
  | 0 => (d.flash, u.executable.location)
  | k + 1 =>
    u.flashing length (flashed length image k).1 (flashed length image k).2
      ((u.executable.location + 16 * k) % 2 ^ 32) (field image (16 * k) 16)

variable {u d}

end Setup

/-! ## Samples -/

namespace Sample

/-- The sample with a storage for an executable of two blocks. -/
def small : Setup := { setup with updateStorage := ⟨0, 448⟩ }

def hash (version : Version) : List UInt8 :=
  small.digest (sections (List.replicate 64 7) (List.replicate 16 0) version 128 (List.replicate 20 0))

def executable (version : Version) : List UInt8 :=
  sections (List.replicate 64 7) (List.replicate 16 0) version 128 (hash version)

/-- Metadata of a newer version for the executable of an older one. -/
def newer : UpdateMetadata :=
  ⟨⟨⟨2, 0, 0⟩, 128, hash ⟨1, 0, 0⟩⟩, List.replicate 20 0, 1, initializationVector⟩

@[irreducible] def update : List UInt8 :=
  Package.packageUpdate small.digest zeros (packMetadata newer ++
    Package.encryptData small.cipher small.key initializationVector (packMetadata newer) ++
    Package.encryptData small.cipher small.key initializationVector (executable ⟨1, 0, 0⟩))

def installed (update : Nor.Image) : Board :=
  ⟨store (fun _ => 0xff) 4096 (executable ⟨1, 2, 3⟩), update, []⟩

theorem length_update : update.length = 448 := by decide +kernel

end Sample

end Boot
end Firefly

import Firefly.Boot.Update

/-!
# Firefly.Boot.Safety

What `fd_boot_update` guarantees over any callbacks. `traced` adds to the device a log of the calls
of the flasher that erase or write, whether they succeed or not, and changes nothing else
(`traced_update`). An update that ends valid leaves a valid executable, and without an action to
install the log stays as it was.
-/

namespace Firefly
namespace Boot

open Result

variable {Δ H C : Type}

inductive FlasherCall where
  | erase (location length : Nat)
  | write (location : Nat) (data : List UInt8)

abbrev Traced (Δ : Type) := Δ × List FlasherCall

def Flasher.traced (f : Flasher Δ) : Flasher (Traced Δ) where
  erase s location length :=
    let log := s.2 ++ [.erase location length]
    image (fun e => (e.1, e.2, log)) (fun r => (r.1, r.2, log)) (f.erase s.1 location length)
  write s location data :=
    let log := s.2 ++ [.write location data]
    image (fun e => (e.1, e.2, log)) (fun d => (d, log)) (f.write s.1 location data)
  finalize s := image (fun e => (e.1, e.2, s.2)) (fun d => (d, s.2)) (f.finalize s.1)

/-- The log of a run, whether it failed or not. -/
def log {α : Type} : Except (Error × Traced Δ) (α × Traced Δ) → List FlasherCall
  | .ok (_, _, log) => log
  | .error (_, _, log) => log

/-- A run without the log. -/
def untraced {α : Type} : Except (Error × Traced Δ) (α × Traced Δ) → Except (Error × Δ) (α × Δ) :=
  image (fun e => (e.1, e.2.1)) (fun r => (r.1, r.2.1))

namespace Interface

variable (i : Interface Δ H C) (d : Δ)

def traced : Interface (Traced Δ) H C where
  info s := i.info s.1
  hash s := i.hash s.1
  decrypt s := i.decrypt s.1
  executableRead s := i.executableRead s.1
  executableFlasher := i.executableFlasher.traced
  updateRead s := i.updateRead s.1
  action := i.action

/-! ## The log changes nothing -/

/-- The decryption, the locations and the device of an installation without the log. -/
def untracedInstalling (s : Installing (Traced Δ) C) : Installing Δ C :=
  ⟨s.decryption, s.device.1, s.flashLocation, s.nextEraseLocation⟩

theorem traced_installBlock (size location length : Nat) (s : Installing (Traced Δ) C) :
    image (fun e => (e.1, e.2.1)) untracedInstalling (i.traced.installBlock size location length s) =
      i.installBlock size location length (untracedInstalling s) := by
  have hflash (next : Nat) (t : Traced Δ) (c : C) (out : List UInt8) :
      image (fun e => (e.1, e.2.1)) untracedInstalling
          ((i.traced.executableFlasher.write t s.flashLocation out) >>= fun t =>
            .ok ⟨c, t, (s.flashLocation + length) % 2 ^ 32, next⟩) =
        (i.executableFlasher.write t.1 s.flashLocation out) >>= fun d =>
          .ok ⟨c, d, (s.flashLocation + length) % 2 ^ 32, next⟩ := by
    refine image_bind (f := Prod.fst) ?_ fun _ => rfl
    cases h : i.executableFlasher.write t.1 s.flashLocation out <;> simp [traced, Flasher.traced, h]
  refine image_bind (f := id) (image_raise ..) fun data => ?_
  refine image_bind (f := id) (image_raise ..) fun ⟨out, c⟩ => ?_
  by_cases hnext : s.nextEraseLocation = s.flashLocation
  · have herase : image (fun e => (e.1, e.2.1)) (fun r => (r.1, r.2.1))
          (i.traced.executableFlasher.erase s.device s.flashLocation size) =
        i.executableFlasher.erase s.device.1 s.flashLocation size := by
      cases h : i.executableFlasher.erase s.device.1 s.flashLocation size <;>
        simp [traced, Flasher.traced, h]
    simp only [untracedInstalling, id, hnext, if_true]
    exact image_bind herase fun ⟨next, t⟩ => hflash next t c out
  · simp only [untracedInstalling, id, hnext, if_false]
    exact hflash s.nextEraseLocation s.device c out

theorem traced_install (s : Traced Δ) (metadata : UpdateMetadata) :
    image (fun e => (e.1, e.2.1)) Prod.fst (i.traced.install s metadata) = i.install s.1 metadata := by
  have hstart : image (fun e : Error × Traced Δ => (e.1, e.2.1))
        (fun r : Range × Installing (Traced Δ) C => (r.1, untracedInstalling r.2))
        (raise (·, s) (i.traced.installStart s metadata)) =
      raise (·, s.1) (i.installStart s.1 metadata) := by
    simp only [installStart, traced]
    cases (i.info s.1).getDecryption with
    | error e => rfl
    | ok key =>
      rw [ok_bind, ok_bind]
      cases (i.decrypt s.1).init key metadata.initializationVector with
      | error e => rfl
      | ok c =>
        rw [ok_bind, ok_bind]
        cases (i.info s.1).getExecutable with
        | error e => rfl
        | ok executable =>
          rw [ok_bind, ok_bind]
          cases (i.info s.1).getUpdateStorage with
          | error e => rfl
          | ok storage => rfl
  refine image_bind hstart fun ⟨range, t⟩ => ?_
  refine image_bind (Blocks.run_image (traced_installBlock i _) _ _ _) fun t => ?_
  refine image_bind (f := Prod.fst) ?_ fun d => ?_
  · cases h : i.executableFlasher.finalize t.device.1 <;> simp [traced, Flasher.traced, h, untracedInstalling]
  · refine image_bind (f := id) (image_raise ..) fun _ => rfl

/-- The log is a history: without it the run is the same. -/
theorem traced_update (s : Traced Δ) : untraced (i.traced.update s) = i.update s.1 := by
  refine image_bind (f := id) (image_raise ..) fun r => ?_
  obtain ⟨_ | _ | _, _ | ⟨m, _⟩⟩ := r
  all_goals try rfl
  refine image_bind (traced_install i s m) fun t => ?_
  refine image_bind (f := id) (image_raise ..) fun r => ?_
  cases r <;> rfl

/-! ## The outcomes of an update -/

theorem choose_eq {executable : Except ExecutableIssue ExecutableMetadata}
    {r : Except UpdateIssue (UpdateMetadata × List UInt8)} (hexecutable : i.getExecutableMetadata d = .ok executable)
    (hupdate : i.getUpdateMetadata d = .ok r) :
    i.choose d = .ok (getAction i.action executable (r.map (·.1)), r) := by
  rw [choose, bind_of_ok hexecutable, bind_of_ok hupdate]
  rfl

theorem update_run {r : Except UpdateIssue (UpdateMetadata × List UInt8)}
    (hchoose : i.choose d = .ok (.run, r)) : i.update d = .ok (.ok (), d) := by
  rw [update, hchoose, raise_ok, ok_bind]
  rfl

theorem update_install {metadata : UpdateMetadata} {data : List UInt8} {d' : Δ} {m : ExecutableMetadata}
    (hchoose : i.choose d = .ok (.install, .ok (metadata, data))) (hinstall : i.install d metadata = .ok d')
    (hvalid : i.getExecutableMetadata d' = .ok (.ok m)) : i.update d = .ok (.ok (), d') := by
  rw [update, hchoose, raise_ok, ok_bind]
  dsimp only
  rw [bind_of_ok hinstall, hvalid, raise_ok, ok_bind]
  rfl

/-- An update that ends valid runs the executable, or has installed one that is valid. -/
theorem update_inv {d' : Δ} (h : i.update d = .ok (.ok (), d')) :
    (∃ r, i.choose d = .ok (.run, r) ∧ d' = d) ∨
      ∃ metadata data m, i.choose d = .ok (.install, .ok (metadata, data)) ∧
        i.install d metadata = .ok d' ∧ i.getExecutableMetadata d' = .ok (.ok m) := by
  obtain ⟨⟨action, r⟩, hr, h⟩ := bind_eq_ok h
  have hchoose := raise_eq_ok hr
  cases action with
  | none => cases h
  | run =>
    cases h
    exact Or.inl ⟨r, hchoose, rfl⟩
  | install =>
    cases r with
    | error e => cases h
    | ok metadata =>
      obtain ⟨d₁, hinstall, h⟩ := bind_eq_ok h
      obtain ⟨executable, hexecutable, h⟩ := bind_eq_ok h
      cases executable with
      | error e => cases h
      | ok m =>
        cases h
        exact Or.inr ⟨metadata.1, metadata.2, m, hchoose, hinstall, raise_eq_ok hexecutable⟩

/-! ## Safety -/

theorem choose_traced (s : Traced Δ) : i.traced.choose s = i.choose s.1 := rfl

/-- Only an action to install uses the flasher. -/
theorem log_update {s : Traced Δ} (h : ∀ r, i.choose s.1 ≠ .ok (.install, r)) :
    log (i.traced.update s) = s.2 := by
  rw [update, choose_traced]
  cases hr : i.choose s.1 with
  | error e => rfl
  | ok r =>
    obtain ⟨action, r⟩ := r
    cases action with
    | none => rfl
    | run => rfl
    | install => exact absurd hr (h r)

theorem choose_install {r : Except UpdateIssue (UpdateMetadata × List UInt8)}
    (h : i.choose d = .ok (.install, r)) :
    ∃ executable, i.getExecutableMetadata d = .ok executable ∧ i.getUpdateMetadata d = .ok r ∧
      getAction i.action executable (r.map (·.1)) = .install := by
  obtain ⟨executable, hexecutable, h⟩ := bind_eq_ok h
  obtain ⟨update, hupdate, h⟩ := bind_eq_ok h
  simp only [pure_eq, Except.ok.injEq, Prod.mk.injEq] at h
  obtain ⟨haction, rfl⟩ := h
  exact ⟨executable, hexecutable, hupdate, haction⟩

/-- Without a valid executable nothing is run. -/
theorem getAction_error {action : Action} {e : ExecutableIssue} {r : Except UpdateIssue UpdateMetadata} :
    getAction action (.error e) r ≠ .run := by
  cases r with
  | error e' => simp [getAction]
  | ok m =>
    rw [getAction]
    split <;> simp

theorem valid_of_update {d' : Δ} (h : i.update d = .ok (.ok (), d')) :
    ∃ m, i.getExecutableMetadata d' = .ok (.ok m) := by
  rcases i.update_inv d h with ⟨r, hchoose, rfl⟩ | ⟨_, _, m, -, -, hvalid⟩
  · -- the executable was valid before, and nothing was written
    obtain ⟨executable, hexecutable, h⟩ := bind_eq_ok hchoose
    obtain ⟨update, -, h⟩ := bind_eq_ok h
    cases executable with
    | ok m => exact ⟨m, hexecutable⟩
    | error e =>
      have haction : getAction i.action (.error e) (update.map (·.1)) = .run :=
        congrArg Prod.fst (Except.ok.inj h)
      exact absurd haction getAction_error
  · exact ⟨m, hvalid⟩

/-- An update that ends valid leaves a valid executable, and where a check fails or the action is not
to install no call of the flasher erased or wrote. -/
theorem update_safe :
    (∀ d', i.update d = .ok (.ok (), d') → ∃ m, i.getExecutableMetadata d' = .ok (.ok m)) ∧
      untraced (i.traced.update (d, [])) = i.update d ∧
        ((∀ executable r, i.getExecutableMetadata d = .ok executable → i.getUpdateMetadata d = .ok r →
            getAction i.action executable (r.map (·.1)) ≠ .install) →
          log (i.traced.update (d, [])) = []) := by
  refine ⟨fun d' => i.valid_of_update d, i.traced_update (d, []), fun h => ?_⟩
  refine i.log_update (s := (d, [])) fun r hr => ?_
  obtain ⟨executable, hexecutable, hupdate, haction⟩ := i.choose_install d hr
  exact h executable r hexecutable hupdate haction

end Interface

end Boot
end Firefly

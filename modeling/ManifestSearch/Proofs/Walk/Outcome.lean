import ManifestSearch.Proofs.Tree.LastLink
import ManifestSearch.Proofs.Walk.Run

/-!
When a walk fails. A walk that starts at an existing place, whatever it is and however its text is
read, goes to its end unless a directory on the way is too deep to be opened; a walk that starts at
no existing place fails there.
-/

namespace ManifestSearch.Walk

variable {disk : Disk} {walk : Walk} {inside : Listing} {held : Leaf}

/-- No directory that a walk enters has a text too long to be opened. -/
def Clear (walk : Walk) (disk : Disk) : Prop :=
  ∀ inside, disk.node true walk.root.text = .ok (.dir inside) →
    Openable walk.skipped walk.root.text inside

instance (walk : Walk) (disk : Disk) : Decidable (Clear walk disk) :=
  match found : disk.node true walk.root.text with
  | .ok (.dir inside) =>
      decidable_of_iff (Openable walk.skipped walk.root.text inside)
        ⟨fun short other same => by rw [found] at same; cases same; exact short,
          fun clear => clear inside found⟩
  | .ok (.leaf _) => .isTrue fun inside same => by simp [found] at same
  | .error _ => .isTrue fun inside same => by simp [found] at same

theorem run_of_node (found : disk.node true walk.root.text = .ok (.dir inside)) :
    walk.run disk = below disk walk.skipped walk.root.text inside := by
  rcases Disk.node_unfollowed found with unfollowed | ⟨target, unfollowed⟩
  · simp only [run, unfollowed]
  · simp only [run, unfollowed, found]

/-- A walk that starts at a file, or at a link that leads to one, lists its start alone. -/
theorem run_of_leaf (walk : Walk)
    (followed : disk.node true walk.root.text = .ok (.leaf held)) :
    walk.run disk = ⟨[Path.ofText walk.root.text], none⟩ := by
  rcases Disk.node_unfollowed followed with unfollowed | ⟨target, unfollowed⟩
  · cases held with
    | file content => simp only [run, unfollowed]
    | link target => simp only [run, unfollowed, followed]
  · simp only [run, unfollowed, followed]

theorem files_of_leaf (walk : Walk)
    (followed : disk.node true walk.root.text = .ok (.leaf held)) :
    walk.files disk = .ok [Path.ofText walk.root.text] := by
  rw [files, run_of_leaf walk followed]
  rfl

theorem files_of_found (clear : Clear walk disk) (found : disk.found walk.root.text) :
    ∃ files, walk.files disk = .ok files := by
  cases followed : disk.node true walk.root.text with
  | error fault => simp [Disk.found, followed] at found
  | ok node =>
      cases node with
      | dir inside =>
          rw [files, run_of_node followed, below_eq (clear inside followed)]
          exact ⟨_, rfl⟩
      | leaf held => exact ⟨_, files_of_leaf walk followed⟩

theorem run_of_missing (walk : Walk) (missing : ¬disk.found walk.root.text) :
    ∃ fault, walk.run disk = .failed (.tree walk.root.text fault) := by
  cases followed : disk.node true walk.root.text with
  | ok node => simp [Disk.found, followed] at missing
  | error fault =>
      cases unfollowed : disk.node false walk.root.text with
      | error other => exact ⟨other, by simp only [run, unfollowed]⟩
      | ok node =>
          by_cases kind : ∃ target, node = .leaf (.link target)
          · obtain ⟨target, rfl⟩ := kind
            exact ⟨fault, by simp only [run, unfollowed, followed]⟩
          · have through := Disk.node_followed unfollowed fun target same => kind ⟨target, same⟩
            simp [followed] at through

theorem files_of_missing (walk : Walk) (missing : ¬disk.found walk.root.text) :
    ∃ fault, walk.files disk = .error (.tree walk.root.text fault) := by
  obtain ⟨fault, failed⟩ := run_of_missing walk missing
  exact ⟨fault, by rw [files, failed]; rfl⟩

theorem node_of_files {all : List Path} (walked : walk.files disk = .ok all) :
    ∃ node, disk.node true walk.root.text = .ok node := by
  cases found : disk.node true walk.root.text with
  | ok node => exact ⟨node, rfl⟩
  | error fault =>
      have missing : ¬disk.found walk.root.text := by simp [Disk.found, found]
      obtain ⟨other, failed⟩ := files_of_missing walk missing
      simp [failed] at walked

end ManifestSearch.Walk

import CommandShell.Proofs.Footprints

/-!
# Calls that break off

A machine may break off what it does to a file that it has opened. What is left then is told by how
far it came: the file holds the first of the bytes that should be written, perhaps none of them, and
nothing else has changed. A call that is refused for any other reason changes nothing, unless what
should be copied cannot be read: by then the target is empty.

## Main definitions

* `Host.outOfRoom`: a machine on which every write breaks off.
* `Disk.LeftWith`: a disk on which one file holds some bytes, and all else is as it was.
* `Disk.BreaksOff`: what is left of a file that should be written.
* `Disk.Emptied`: what is left of the target of a copy that cannot be read.
* `Disk.Untimed`: what is left of a new file whose time cannot be set.

## Main results

* `Disk.write_eq_error`, `Disk.touch_eq_error`, `Disk.copyFile_eq_error`, `Disk.store_eq_error`:
  what a call leaves that is refused;
* `Disk.not_breaksOff_reliable`, `Disk.not_untimed_reliable`: a reliable machine breaks nothing
  off.
-/

namespace CommandShell

/-- A machine that is out of room: no byte is kept that is written to a file. -/
def Host.outOfRoom : Host where
  breaksOff _ _ bytes := if bytes = [] then none else some (0, .noSpace)
  keepsTime _ _ := none

namespace Disk

variable {d opened left : Disk} {p source target : Path} {location : Location} {bytes : Bytes}
  {refusal : Refusal} {host : Host}

/-- A disk without devices. -/
def NoDevices (d : Disk) : Prop :=
  ∀ location kind, d.get? location ≠ some (.device kind)

/-- A disk has no devices when none of its entries is one. -/
theorem noDevices_of_entries
    (h : d.entries.all (fun placed => !(placed.2 matches .device _)) = true) : d.NoDevices := by
  intro location kind hget
  rw [get?, entryAt] at hget
  split at hget
  · cases hget
  · obtain ⟨before, after, hentries, -⟩ := List.lookup_eq_some_iff.1 hget
    have hdevice := List.all_eq_true.1 h (location, .device kind) (by simp [hentries])
    cases hdevice

/-! ## What is left -/

/-- The file at a location holds some bytes, whether or not it was there before, and everything else
is as it was. -/
def LeftWith (d : Disk) (location : Location) (bytes : Bytes) (left : Disk) : Prop :=
  ∀ other, left.get? other = if other = location then some (.file bytes) else d.get? other

/-- The file at a path was opened, and the machine wrote so many of some bytes to it and no more. -/
def BreaksOff (d : Disk) (host : Host) (p : Path) (bytes : Bytes) (left : Disk) : Prop :=
  ∃ location opened now count refusal, d.openFile p = .ok (location, opened) ∧
    host.breaksOff now location bytes = some (count, refusal) ∧
    d.LeftWith location (bytes.take count) left

/-- The file at a path was opened and emptied. -/
def Emptied (d : Disk) (p : Path) (left : Disk) : Prop :=
  ∃ location opened, d.openFile p = .ok (location, opened) ∧ d.LeftWith location [] left

/-- The file at a path is new and empty, and its time could not be set. -/
def Untimed (d : Disk) (host : Host) (p : Path) (left : Disk) : Prop :=
  ∃ location refusal, d.openFile p = .ok (location, left) ∧ d.get? location = none ∧
    d.LeftWith location [] left ∧ host.keepsTime left location = some refusal

/-- A reliable machine breaks nothing off. -/
theorem not_breaksOff_reliable : ¬d.BreaksOff .reliable p bytes left := by
  rintro ⟨location, opened, now, count, refusal, -, hbreaks, -⟩
  cases hbreaks

/-- A reliable machine sets all times. -/
theorem not_untimed_reliable : ¬d.Untimed .reliable p left := by
  rintro ⟨location, refusal, -, -, -, htime⟩
  cases htime

/-- Away from the file nothing has changed. -/
theorem LeftWith.get?_of_ne {other : Location} (h : d.LeftWith location bytes left)
    (hne : other ≠ location) : left.get? other = d.get? other :=
  (h other).trans (if_neg hne)

/-- A file that was opened is there with what was put into it. -/
theorem leftWith_put {old : Bytes} (hopen : d.openFile p = .ok (location, opened))
    (hold : opened.get? location = some (.file old)) (bytes : Bytes) :
    d.LeftWith location bytes (opened.put location (.file bytes)) := by
  obtain ⟨spot, -, rfl, hopened⟩ := openFile_eq_ok hopen
  intro other
  rw [get?_put (accepts_of_file hold bytes)]
  split
  · rfl
  · next hne => exact hopened other hne

/-- A second write to the file takes the place of the first one. -/
theorem LeftWith.put {first : Bytes} (h : d.LeftWith location first left) (bytes : Bytes) :
    d.LeftWith location bytes (left.put location (.file bytes)) := by
  intro other
  rw [get?_put (accepts_of_file ((h location).trans (if_pos rfl)) bytes), h]
  split
  · rfl
  · rfl

/-! ## Refused calls -/

/-- A write to an opened file is refused by a device, which stays as it is, or because the machine
breaks off. -/
theorem writeAt_eq_error {mode : WriteMode}
    (h : d.writeAt location bytes mode host = (.error refusal, left)) :
    ((∃ kind, d.get? location = some (.device kind)) ∧ left = d) ∨
      ∃ old count, d.get? location = some (.file old) ∧
        host.breaksOff d location bytes = some (count, refusal) ∧
        left = d.put location (.file (mode.apply old (bytes.take count))) := by
  unfold writeAt at h
  split at h
  · next old hold =>
    split at h
    · cases h
    · next hbreaks =>
      cases h
      exact .inr ⟨old, _, hold, hbreaks, rfl⟩
  · next kind hkind => exact .inl ⟨⟨kind, hkind⟩, (Prod.mk.inj h).2.symm⟩
  · cases h

/-- A write that replaces what an opened file holds leaves nothing changed, or breaks off. -/
theorem writeAt_opened_eq_error (hopen : d.openFile p = .ok (location, opened))
    (h : opened.writeAt location bytes .truncate host = (.error refusal, left)) :
    left = d ∨ d.BreaksOff host p bytes left := by
  rcases get?_openFile hopen with ⟨old, hold, -⟩ | ⟨kind, hkind, rfl⟩
  · rcases writeAt_eq_error h with ⟨⟨kind, hkind⟩, -⟩ | ⟨_, count, -, hbreaks, rfl⟩
    · rw [hold] at hkind
      cases hkind
    · exact .inr ⟨location, opened, opened, count, refusal, hopen, hbreaks,
        leftWith_put hopen hold _⟩
  · rw [writeAt_device hkind] at h
    exact .inl (Prod.mk.inj h).2.symm

/-- A file that cannot be written is as it was, or its write broke off. -/
theorem writeFile_eq_error (h : d.writeFile p bytes .truncate host = (.error refusal, left)) :
    left = d ∨ d.BreaksOff host p bytes left := by
  unfold writeFile at h
  split at h
  · exact .inl (Prod.mk.inj h).2.symm
  · next hopen => exact writeAt_opened_eq_error hopen h

/-- The same of a request for it. -/
theorem write_eq_error {stop : Stop} (h : d.write p bytes .truncate host = (.error stop, left)) :
    left = d ∨ d.BreaksOff host p bytes left := by
  unfold write at h
  split at h
  · exact .inl (Prod.mk.inj h).2.symm
  · next location opened hopen =>
    rcases hwrite : opened.writeAt location bytes .truncate host with ⟨refusal | _, written⟩
    · rw [hwrite, finishing] at h
      obtain ⟨-, rfl⟩ := Prod.mk.inj h
      exact writeAt_opened_eq_error hopen hwrite
    · rw [hwrite, finishing] at h
      cases h

/-- A write that goes well does on any machine what it does on a reliable one. -/
theorem write_reliable {mode : WriteMode} {written : Disk}
    (h : d.write p bytes mode host = (.ok (), written)) :
    d.write p bytes mode = (.ok (), written) := by
  unfold write at h ⊢
  split at h
  · cases h
  · next location opened hopen =>
    unfold writeAt at h ⊢
    cases hget : opened.get? location with
    | none => simpa [hget, finishing] using h
    | some entry =>
      cases entry with
      | file old =>
        simp only [hget, Host.reliable_breaksOff] at h ⊢
        split at h
        · exact h
        · simp [finishing] at h
      | _ => simpa [hget, finishing] using h

/-- Opening a file changes nothing, or makes it. -/
theorem eq_or_leftWith_of_openFile (h : d.openFile p = .ok (location, opened)) :
    opened = d ∨ d.get? location = none ∧ d.LeftWith location [] opened := by
  unfold openFile at h
  cases hwalk : d.walk .makeFile p with
  | error refusal => simp [hwalk, bind, Except.bind] at h
  | ok spot =>
    cases spot with
    | vacant above name =>
      simp only [hwalk, bind, Except.bind, Except.ok.injEq, Prod.mk.injEq] at h
      obtain ⟨rfl, rfl⟩ := h
      obtain ⟨hdir, hnone⟩ := (ends_of_walkLinks (walk_eq_ok hwalk).2).of_vacant
      exact .inr ⟨hnone, fun other => get?_put (accepts_of_vacant hdir hnone _) other⟩
    | found there =>
      simp only [hwalk, bind, Except.bind] at h
      split at h
      · cases h
      · exact .inl (Prod.mk.inj (Except.ok.inj h)).2.symm

/-- A file that cannot be touched is as it was, or it is new and its time could not be set. -/
theorem touch_eq_error {stop : Stop} (h : d.touch p host = (.error stop, left)) :
    left = d ∨ d.Untimed host p left := by
  unfold touch at h
  split at h
  · exact .inl (Prod.mk.inj h).2.symm
  · next location opened hopen =>
    split at h
    · next refusal htime =>
      obtain ⟨-, rfl⟩ := Prod.mk.inj h
      exact (eq_or_leftWith_of_openFile hopen).imp_right fun ⟨hnone, hleft⟩ =>
        ⟨location, refusal, hopen, hnone, hleft, htime⟩
    · cases h

/-- A transfer that is refused breaks off, or it is one from a device that cannot be read. -/
theorem transfer_eq_error {origin : Location} {entry : Entry} (hentry : d.get? origin = some entry)
    (hregular : isRegular entry = true)
    (h : d.transfer origin location host = (.error refusal, left)) :
    (∃ bytes, entry = .file bytes ∧
        d.writeAt location bytes .truncate host = (.error refusal, left)) ∨
      (∃ kind, entry = .device kind) ∧ left = d := by
  unfold transfer at h
  rw [hentry, Option.elim_some] at h
  cases entry with
  | directory => cases hregular
  | link => cases hregular
  | file bytes =>
    simp only [bytesOf] at h
    split at h
    · cases h
    · next hwrite =>
      cases h
      exact .inl ⟨bytes, rfl, hwrite⟩
  | device kind =>
    cases kind with
    | null | full => cases hregular
    | faulty => exact .inr ⟨⟨_, rfl⟩, (Prod.mk.inj h).2.symm⟩

/-- A copy to another file that is refused leaves everything as it was, or it broke off. Or else the
source is a device that cannot be read, and the target is empty by then. -/
theorem copyFile_eq_error
    (hother : ∀ origin location, d.find .use source = .ok origin → d.Opens target location →
      location ≠ origin)
    (h : d.copyFile source target host = (.error refusal, left)) :
    left = d ∨ (∃ bytes, d.content source = .ok bytes ∧ d.BreaksOff host target bytes left) ∨
      (∃ kind, d.lookAt source = .ok (.device kind)) ∧ d.Emptied target left := by
  unfold copyFile at h
  split at h
  · exact .inl (Prod.mk.inj h).2.symm
  next origin horigin =>
  split at h
  case isFalse => exact .inl (Prod.mk.inj h).2.symm
  next hregular =>
  split at h
  · exact .inl (Prod.mk.inj h).2.symm
  next location opened hopen =>
  obtain ⟨entry, hentry, hkind⟩ := (Option.any_eq_true _ _).1 hregular
  have hlook : d.lookAt source = .ok entry :=
    lookAt_eq_ok.2 ⟨origin, find_eq_ok.1 horigin, hentry⟩
  have hne := hother origin location horigin (spares_openFile hopen).1
  rcases get?_openFile hopen with ⟨old, hold, -⟩ | ⟨kind, hdevice, rfl⟩
  · -- The target is emptied first, and the source is another file, so it is read as it was.
    have hemptied := leftWith_put hopen hold []
    have hget := (hemptied.get?_of_ne hne.symm).trans hentry
    rw [writeAt_file hold] at h
    rcases transfer_eq_error hget hkind h with ⟨bytes, rfl, hwrite⟩ | ⟨⟨kind, rfl⟩, rfl⟩
    · have hread : d.content source = .ok bytes := by
        rw [content, hlook]
        rfl
      rcases writeAt_eq_error hwrite with ⟨⟨kind, hfile⟩, -⟩ | ⟨_, count, -, hbreaks, rfl⟩
      · rw [hemptied, if_pos rfl] at hfile
        cases hfile
      · exact .inr (.inl ⟨bytes, hread, location, opened, _, count, refusal, hopen, hbreaks,
          hemptied.put _⟩)
    · exact .inr (.inr ⟨⟨kind, hlook⟩, location, opened, hopen, hemptied⟩)
  · -- A device stays as it is.
    rw [writeAt_device hdevice] at h
    rcases transfer_eq_error hentry hkind h with ⟨bytes, rfl, hwrite⟩ | ⟨-, rfl⟩
    · rw [writeAt_device hdevice] at hwrite
      exact .inl (Prod.mk.inj hwrite).2.symm
    · exact .inl rfl

/-- An archive that cannot be stored is as it was, or it was collected and encoded and its write
broke off. -/
theorem store_eq_error {sources : List Source} {format : Archive.Format} {stop : Stop}
    (h : d.store p sources host format = (.error stop, left)) :
    left = d ∨ ∃ members bytes, d.gatherAll sources format = .ok members ∧
      format.encode members = .ok bytes ∧ d.BreaksOff host p bytes left := by
  unfold store at h
  split at h
  · exact .inl (Prod.mk.inj h).2.symm
  · next members hgather =>
    split at h
    · exact .inl (Prod.mk.inj h).2.symm
    · next bytes hencode =>
      split at h
      · next hwrite =>
        obtain ⟨-, rfl⟩ := Prod.mk.inj h
        exact (writeFile_eq_error hwrite).imp_right fun hbreaks =>
          ⟨members, bytes, hgather, hencode, hbreaks⟩
      · cases h

end Disk

end CommandShell

import MessageBroker.Storage.Opening
import MessageBroker.Lib.Text

/-!
# The checkpoint file of the leader epochs

`EpochCheckpoint.Write` renders the entries as lines of text into a temporary
file and renames it over the old one; `Read` parses what it finds. Each file
operation may fail. Whatever does, the file is one of two texts, and each text
reads back as the entries it was made from.
-/
namespace MessageBroker.Storage

open Lib Lib.Decimal Lib.Text

/-! ## Reading -/

/-- `epochCheckpointVersion`. -/
def epochCheckpointVersion : Int := 0

inductive CheckpointReadError
  | read
  | unsupportedVersion (line : List Char)
  | missingCount
  | invalidCount (line : List Char)
  | missingEntry (count : Int) (found : Nat)
  | fieldCount (i found : Nat)
  | invalidEpoch (i : Nat) (field : List Char)
  | invalidOffset (i : Nat) (field : List Char)
  | trailingContent (count : Int)
  deriving DecidableEq

/-- `strconv.ParseInt(s, 10, 32)`. -/
def parseInt32 (s : List Char) : Option Int :=
  (atoi s).filter fun v => decide (-2 ^ 31 ≤ v ∧ v < 2 ^ 31)

/-- The entry loop of `Read` from entry `i` on, `n` entries before its end. -/
def readEntries (count : Int) :
    Nat → Nat → List Char → Except CheckpointReadError (List EpochEntry × List Char)
  | 0, _, text => .ok ([], text)
  | n + 1, i, text =>
      match scanLine text with
      | .tooLong => .error .read
      | .done => .error (.missingEntry count i)
      | .line line rest =>
        match fields line with
        | [epochField, offsetField] =>
          match parseInt32 epochField with
          | none => .error (.invalidEpoch i epochField)
          | some epoch =>
            if epoch < 0 then .error (.invalidEpoch i epochField)
            else match atoi offsetField with
              | none => .error (.invalidOffset i offsetField)
              | some offset =>
                if offset < 0 then .error (.invalidOffset i offsetField)
                else match readEntries count n (i + 1) rest with
                  | .error e => .error e
                  | .ok (entries, rest) =>
                    .ok (⟨Int32.ofInt epoch, offset.toNat⟩ :: entries, rest)
        | found => .error (.fieldCount i found.length)

/-- `EpochCheckpoint.Read` of the text of the file. -/
def parseCheckpoint (text : List Char) : Except CheckpointReadError (List EpochEntry) :=
  match scanLine text with
  | .tooLong => .error .read
  | .done => .ok []
  | .line version rest =>
    if atoi (trimSpace version) ≠ some epochCheckpointVersion then
      .error (.unsupportedVersion version)
    else match scanLine rest with
      | .tooLong => .error .read
      | .done => .error .missingCount
      | .line countLine rest =>
        match atoi (trimSpace countLine) with
        | none => .error (.invalidCount countLine)
        | some count =>
          if count < 0 then .error (.invalidCount countLine)
          else match readEntries count count.toNat 0 rest with
            | .error e => .error e
            | .ok (entries, rest) =>
              match scanLine rest with
              | .tooLong => .error .read
              | .done => .ok entries
              | .line _ _ => .error (.trailingContent count)

/-! ## Writing -/

/-- A line of an entry; validation has excluded negative epochs. -/
def renderEntry (e : EpochEntry) : List Char :=
  digits e.epoch.toInt.toNat ++ ' ' :: digits e.startOffset

/-- The text `Write` builds. -/
def renderCheckpoint (entries : List EpochEntry) : List Char :=
  digits epochCheckpointVersion.toNat ++ '\n' ::
    (digits entries.length ++ '\n' :: entries.flatMap fun e => renderEntry e ++ ['\n'])

/-- The checkpoint file and the temporary file beside it. -/
structure CheckpointFiles where
  file : Option (List Char)
  temp : Option (List Char)

/-- A rename happens or not, and may be reported as failed although it happened. -/
inductive Renaming
  | done
  | failed
  | doneReportedFailed
  deriving DecidableEq

/-- How each file operation of `Write` ends. -/
structure CheckpointFaults where
  openFails : Bool
  /-- the bytes that a short or failed write left in the file -/
  writeStops : Option Nat
  syncFails : Bool
  closeFails : Bool
  renames : Renaming
  syncDirFails : Bool
  /-- the clean-up of the temporary file, whose error is dropped -/
  removeFails : Bool

def CheckpointFaults.none : CheckpointFaults := ⟨false, .none, false, false, .done, false, false⟩

inductive CheckpointWriteError
  | invalid (e : EpochError)
  | openTemp
  | writeTemp
  | syncTemp
  | closeTemp
  | rename
  | syncDir
  deriving DecidableEq

namespace CheckpointFiles

/-- `Read`: an absent file has no entries. -/
def read (d : CheckpointFiles) : Except CheckpointReadError (List EpochEntry) :=
  match d.file with
  | none => .ok []
  | some text => parseCheckpoint text

def removeTemp (d : CheckpointFiles) (faults : CheckpointFaults) : CheckpointFiles :=
  if faults.removeFails then d else { d with temp := none }

/-- `Write`, one file operation after the other. -/
def write (d : CheckpointFiles) (entries : List EpochEntry) (faults : CheckpointFaults) :
    Except CheckpointWriteError Unit × CheckpointFiles :=
  match checkpointCheck 0 none entries with
  | .error e => (.error (.invalid e), d)
  | .ok () =>
    let data := renderCheckpoint entries
    if faults.openFails then (.error .openTemp, d)
    else match faults.writeStops with
      | some n => (.error .writeTemp, removeTemp { d with temp := some (data.take n) } faults)
      | none =>
        let d : CheckpointFiles := { d with temp := some data }
        if faults.syncFails then (.error .syncTemp, d.removeTemp faults)
        else if faults.closeFails then (.error .closeTemp, d.removeTemp faults)
        else match faults.renames with
          | .failed => (.error .rename, d.removeTemp faults)
          | .doneReportedFailed => (.error .rename, removeTemp ⟨d.temp, none⟩ faults)
          | .done =>
            if faults.syncDirFails then (.error .syncDir, ⟨d.temp, none⟩)
            else (.ok (), ⟨d.temp, none⟩)

end CheckpointFiles

/-! ## The text reads back -/

theorem atoi_digits {n : Nat} (h : n < 2 ^ 63) : atoi (digits n) = some (n : Int) :=
  atoi_toDigits h

theorem parseInt32_digits {n : Nat} (h : n < 2 ^ 31) : parseInt32 (digits n) = some (n : Int) := by
  rw [parseInt32, atoi_digits (by omega), Option.filter_some, if_pos]
  exact decide_eq_true ⟨by omega, by omega⟩

theorem scanLine_digits {n : Nat} (h : n < 2 ^ 63) (rest : List Char) :
    scanLine (digits n ++ '\n' :: rest) = .line (digits n) rest := by
  have hlen : (digits n).length ≤ 19 := length_digits (by decide) (by omega)
  exact scanLine_append (notMem_toDigits (by decide) n) (notMem_toDigits (by decide) n)
    (hlen.trans (by decide)) rest

/-- An entry as its line in the file gives it back. -/
structure Renderable (e : EpochEntry) : Prop where
  nonneg : 0 ≤ e.epoch
  small : e.startOffset < 2 ^ 63

theorem epoch_toNat_lt {epoch : Int32} (h : 0 ≤ epoch) :
    epoch.toInt.toNat < 2 ^ 31 ∧ (epoch.toInt.toNat : Int) = epoch.toInt := by
  have h0 : 0 ≤ epoch.toInt := by simpa using Int32.le_iff_toInt_le.mp h
  have hlt := epoch.toInt_lt
  omega

theorem scanLine_entry {e : EpochEntry} (h : Renderable e) (rest : List Char) :
    scanLine (renderEntry e ++ '\n' :: rest) = .line (renderEntry e) rest := by
  have hepoch : (digits e.epoch.toInt.toNat).length ≤ 19 :=
    length_digits (by decide) (by have := (epoch_toNat_lt h.nonneg).1; omega)
  have hoffset : (digits e.startOffset).length ≤ 19 :=
    length_digits (by decide) (by have := h.small; omega)
  have hmem : ∀ c : Char, c.isDigit = false → c ≠ ' ' → c ∉ renderEntry e := by
    intro c hc hblank hin
    rcases List.mem_append.mp hin with hin | hin
    · exact notMem_toDigits hc _ hin
    · rcases List.mem_cons.mp hin with rfl | hin
      · exact hblank rfl
      · exact notMem_toDigits hc _ hin
  refine scanLine_append (hmem _ (by decide) (by decide)) (hmem _ (by decide) (by decide)) ?_ rest
  rw [renderEntry, List.length_append, List.length_cons]
  omega

theorem readEntries_render (count : Int) {es : List EpochEntry} : ∀ (i : Nat) (rest : List Char),
    (∀ e ∈ es, Renderable e) →
    readEntries count es.length i ((es.flatMap fun e => renderEntry e ++ ['\n']) ++ rest) =
      .ok (es, rest) := by
  induction es with
  | nil => exact fun _ _ _ => rfl
  | cons e es ih =>
    intro i rest hes
    have he := hes e List.mem_cons_self
    have hepoch := epoch_toNat_lt he.nonneg
    have hfields : fields (renderEntry e) = [digits e.epoch.toInt.toNat, digits e.startOffset] :=
      fields_digits _ _
    have hrest := ih (i + 1) rest fun x hx => hes x (List.mem_cons_of_mem _ hx)
    rw [List.flatMap_cons, List.append_assoc, List.append_assoc, List.singleton_append,
      List.length_cons, readEntries, scanLine_entry he]
    simp only [hfields, parseInt32_digits hepoch.1, atoi_digits he.small, hrest]
    rw [if_neg (by omega), if_neg (by omega), hepoch.2, Int32.ofInt_toInt, Int.toNat_natCast]

/-- Strictly increasing epochs leave room for 2^31 entries. -/
theorem length_of_increasing {c : EpochCache} : ∀ (low : Int), c.Increasing →
    (∀ e ∈ c, low ≤ e.epoch.toInt) → low ≤ 2 ^ 31 → low + c.length ≤ 2 ^ 31 := by
  induction c with
  | nil => intro low _ _ hlow; simpa using hlow
  | cons e c ih =>
    intro low hinc hall _
    have hlow := hall e List.mem_cons_self
    have hlt := e.epoch.toInt_lt
    have hrest := ih (low + 1) hinc.tail (fun x hx => ?_) (by omega)
    · rw [List.length_cons]
      push_cast
      omega
    · have := Int32.lt_iff_toInt_lt.mp (hinc.head_lt hx).1
      omega

theorem EpochCache.Writable.length_lt {c : EpochCache} (h : c.Writable) : c.length < 2 ^ 63 := by
  have := length_of_increasing 0 h.increasing
    (fun e he => by simpa using Int32.le_iff_toInt_le.mp (h.nonneg e he)) (by omega)
  omega

/-- What a write puts into the file is read as the entries written. -/
theorem parseCheckpoint_render {c : EpochCache} (h : c.Writable) :
    parseCheckpoint (renderCheckpoint c) = .ok c := by
  have hread := readEntries_render c.length 0 []
    fun e he => Renderable.mk (h.nonneg e he) (h.small e he)
  rw [List.append_nil] at hread
  have hversion : (epochCheckpointVersion.toNat : Int) = epochCheckpointVersion := rfl
  rw [parseCheckpoint, renderCheckpoint, scanLine_digits (by decide)]
  simp only [trimSpace_digits, atoi_digits (show epochCheckpointVersion.toNat < 2 ^ 63 by decide),
    hversion, scanLine_digits h.length_lt, atoi_digits h.length_lt, Int.toNat_natCast, hread]
  rw [if_neg (by simp), if_neg (by omega)]
  rfl

/-! ## Whatever fails, the file is one of two texts -/

/-- The write gets as far as replacing the file. -/
structure Replaces (entries : List EpochEntry) (faults : CheckpointFaults) : Prop where
  checked : checkpointCheck 0 none entries = .ok ()
  opened : faults.openFails = false
  written : faults.writeStops = none
  synced : faults.syncFails = false
  closed : faults.closeFails = false
  renamed : faults.renames ≠ .failed

namespace CheckpointFiles

@[simp]
theorem removeTemp_file (d : CheckpointFiles) (faults : CheckpointFaults) :
    (d.removeTemp faults).file = d.file := by
  unfold removeTemp
  split <;> rfl

/-- A write fails and leaves the file, or replaces it; then it fails only if the
rename or the directory reports so. -/
theorem write_cases (d : CheckpointFiles) (entries : List EpochEntry) (faults : CheckpointFaults) :
    (¬ Replaces entries faults ∧ (∃ e, (d.write entries faults).1 = .error e) ∧
      (d.write entries faults).2.file = d.file) ∨
    (Replaces entries faults ∧ (d.write entries faults).2.file = some (renderCheckpoint entries) ∧
      ((d.write entries faults).1 = .ok () ↔
        faults.renames = .done ∧ faults.syncDirFails = false)) := by
  unfold write
  cases hcheck : checkpointCheck 0 none entries with
  | error e =>
    refine .inl ⟨fun h => ?_, ⟨_, rfl⟩, rfl⟩
    rw [h.checked] at hcheck
    cases hcheck
  | ok u =>
    cases hopen : faults.openFails with
    | true => exact .inl ⟨fun h => absurd h.opened (by simp [hopen]), ⟨_, rfl⟩, rfl⟩
    | false =>
    cases hwrite : faults.writeStops with
    | some n => exact .inl ⟨fun h => absurd h.written (by simp [hwrite]), ⟨_, rfl⟩, by simp⟩
    | none =>
    cases hsync : faults.syncFails with
    | true => exact .inl ⟨fun h => absurd h.synced (by simp [hsync]), ⟨_, rfl⟩, by simp⟩
    | false =>
    cases hclose : faults.closeFails with
    | true => exact .inl ⟨fun h => absurd h.closed (by simp [hclose]), ⟨_, rfl⟩, by simp⟩
    | false =>
    have hrep (hren : faults.renames ≠ .failed) : Replaces entries faults :=
      ⟨hcheck, hopen, hwrite, hsync, hclose, hren⟩
    cases hren : faults.renames with
    | failed => exact .inl ⟨fun h => h.renamed hren, ⟨_, rfl⟩, by simp⟩
    | doneReportedFailed => exact .inr ⟨hrep (by rw [hren]; decide), by simp, by simp⟩
    | done =>
      cases hdir : faults.syncDirFails with
      | true => exact .inr ⟨hrep (by rw [hren]; decide), rfl, by simp⟩
      | false => exact .inr ⟨hrep (by rw [hren]; decide), rfl, by simp⟩

/-- A write is refused by its checks exactly if the entries could not be held. -/
theorem write_invalid_iff (d : CheckpointFiles) (entries : List EpochEntry)
    (faults : CheckpointFaults) :
    (∃ e, (d.write entries faults).1 = .error (.invalid e)) ↔
      ¬ EpochCache.Writable entries := by
  rw [← EpochCache.checkpointCheck_writable]
  unfold write
  rcases hcheck : checkpointCheck 0 none entries with e | u
  · simp
  · simp only [not_true_eq_false, iff_false, not_exists]
    intro e
    repeat' split
    all_goals simp

/-- The file is absent, or as a successful write left it. -/
def LeftBy (d : CheckpointFiles) (old : List EpochEntry) : Prop :=
  d.file = none ∧ old = [] ∨
    ∃ (before : CheckpointFiles) (faults : CheckpointFaults),
      (before.write old faults).1 = .ok () ∧ d.file = (before.write old faults).2.file

theorem read_replaced {d : CheckpointFiles} {entries : List EpochEntry}
    (h : EpochCache.Writable entries) (hfile : d.file = some (renderCheckpoint entries)) :
    d.read = .ok entries := by
  rw [read, hfile]
  exact parseCheckpoint_render h

theorem Replaces.writable {entries : List EpochEntry} {faults : CheckpointFaults}
    (h : Replaces entries faults) : EpochCache.Writable entries :=
  EpochCache.checkpointCheck_writable.mp h.checked

theorem LeftBy.read {d : CheckpointFiles} {old : List EpochEntry} (h : d.LeftBy old) :
    d.read = .ok old := by
  rcases h with ⟨hfile, rfl⟩ | ⟨before, faults, hok, hfile⟩
  · rw [CheckpointFiles.read, hfile]
  · rcases write_cases before old faults with ⟨-, ⟨e, he⟩, -⟩ | ⟨hrep, hnew, -⟩
    · rw [he] at hok
      cases hok
    · exact read_replaced (Replaces.writable hrep) (hfile.trans hnew)

/-- What is read after a write, whatever failed. -/
theorem read_write {d : CheckpointFiles} {old : List EpochEntry} (h : d.read = .ok old)
    (entries : List EpochEntry) (faults : CheckpointFaults) :
    (Replaces entries faults ∧ (d.write entries faults).2.read = .ok entries) ∨
    (¬ Replaces entries faults ∧ (∃ e, (d.write entries faults).1 = .error e) ∧
      (d.write entries faults).2.read = .ok old) := by
  rcases write_cases d entries faults with ⟨hrep, herr, hfile⟩ | ⟨hrep, hfile, -⟩
  · refine .inr ⟨hrep, herr, ?_⟩
    rw [read, hfile]
    exact h
  · exact .inl ⟨hrep, read_replaced (Replaces.writable hrep) hfile⟩

end CheckpointFiles

theorem checkpoint_write_atomic (d : CheckpointFiles) (old : List EpochEntry) (hold : d.LeftBy old)
    (entries : List EpochEntry) (faults : CheckpointFaults) :
    ((d.write entries faults).2.read = .ok old ∨ (d.write entries faults).2.read = .ok entries) ∧
    ((d.write entries faults).1 = .ok () → (d.write entries faults).2.read = .ok entries) ∧
    (∀ e, (d.write entries faults).1 = .error e → ¬ Replaces entries faults →
      (d.write entries faults).2.read = .ok old) ∧
    ((∃ e, (d.write entries faults).1 = .error (.invalid e)) ↔ ¬ EpochCache.Writable entries) ∧
    ((d.write entries .none).1 = .ok () ↔ EpochCache.Writable entries) := by
  refine ⟨?_, ?_, ?_, d.write_invalid_iff entries faults, ?_⟩
  · rcases CheckpointFiles.read_write hold.read entries faults with ⟨-, h⟩ | ⟨-, -, h⟩
    · exact .inr h
    · exact .inl h
  · intro hok
    rcases CheckpointFiles.read_write hold.read entries faults with ⟨-, h⟩ | ⟨-, ⟨e, he⟩, -⟩
    · exact h
    · rw [he] at hok
      cases hok
  · intro _ _ hrep
    rcases CheckpointFiles.read_write hold.read entries faults with ⟨h, -⟩ | ⟨-, -, h⟩
    · exact absurd h hrep
    · exact h
  · rw [← EpochCache.checkpointCheck_writable]
    rcases CheckpointFiles.write_cases d entries .none with ⟨hrep, ⟨e, he⟩, -⟩ | ⟨hrep, -, hok⟩
    · rw [he]
      refine ⟨fun h => (by cases h), fun h => ?_⟩
      exact absurd ⟨h, rfl, rfl, rfl, rfl, by decide⟩ hrep
    · exact ⟨fun _ => hrep.checked, fun _ => hok.mpr ⟨rfl, rfl⟩⟩

/-- A second checkpoint whose directory could not be synced: the new entries are read. -/
theorem checkpoint_write_atomic_sample :
    let d := (CheckpointFiles.write ⟨none, none⟩ [⟨0, 0⟩, ⟨3, 17⟩] .none).2
    let faults : CheckpointFaults := { CheckpointFaults.none with syncDirFails := true }
    (d.write [⟨0, 0⟩] faults).1 = .error .syncDir ∧ (d.write [⟨0, 0⟩] .none).1 = .ok () ∧
      ((d.write [⟨0, 0⟩] faults).2.read = .ok [⟨0, 0⟩, ⟨3, 17⟩] ∨
        (d.write [⟨0, 0⟩] faults).2.read = .ok [⟨0, 0⟩]) := by
  intro d faults
  have hleft : d.LeftBy [⟨0, 0⟩, ⟨3, 17⟩] := .inr ⟨⟨none, none⟩, .none, by decide +kernel, rfl⟩
  exact ⟨by decide +kernel, by decide +kernel,
    (checkpoint_write_atomic d _ hleft [⟨0, 0⟩] faults).1⟩

end MessageBroker.Storage

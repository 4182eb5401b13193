/-
PacketDistribution.Node.MountScanTheorems — what the scan of a mount table
reports.

The loop reads lines into a buffer of 512 characters and fields into buffers
of 256. What it sees of a line is the line in pieces of 511 characters, and
of a piece the fields in parts of 255.

* `mountLoop_eq`: the scan of any text, as a function of these pieces.
* `showsLine_of_short`: a line that fits the buffers is reported as it is.
* `mountScan_iff`: when the scan reports what it should, up to every line end
  and at the end of the text.
-/
import PacketDistribution.Node.NodeInfo

namespace PacketDistribution.Node

open PacketDistribution.Lib

/-! ## The property -/

/-- The second of at least two fields, if the first is accepted. -/
def mountPoint? (accepts : StdString → Bool) : List StdString → Option StdString
  | device :: mountPoint :: _ => if accepts device then some mountPoint else none
  | _ => none

/-- The entry of a mount point, with the sizes the queries give. -/
def mountEntry (available total : StdString → ℚ) (mountPoint : StdString) : DiskInfo :=
  ⟨mountPoint, available mountPoint, total mountPoint⟩

/-- One entry for each line with at least two fields whose first is
accepted, in file order. -/
def mountEntries (accepts : StdString → Bool) (available total : StdString → ℚ)
    (content : StdString) : List DiskInfo :=
  (lines content).flatMap fun line =>
    ((mountPoint? accepts (words line)).map (mountEntry available total)).toList

/-! ## What the loop sees -/

/-- The fields of a piece of a line, in parts that fit the buffers. -/
def seenFields (piece : StdString) : List StdString :=
  (words (cString piece)).flatMap (cut 255)

/-- The mount points the loop sees in a line. -/
def seenMountPoints (accepts : StdString → Bool) (line : StdString) : List StdString :=
  (cut 511 line).filterMap fun piece => mountPoint? accepts (seenFields piece)

/-- The pieces of the line show the line's own mount point once, and no
other; or none, if the line has none. -/
def ShowsLine (accepts : StdString → Bool) (line : StdString) : Prop :=
  match mountPoint? accepts (words line) with
  | none => ∀ piece ∈ cut 511 line, mountPoint? accepts (seenFields piece) = none
  | some mountPoint =>
      ∃ before piece after, cut 511 line = before ++ piece :: after ∧
        mountPoint? accepts (seenFields piece) = some mountPoint ∧
        ∀ other ∈ before ++ after, mountPoint? accepts (seenFields other) = none

variable {accepts : StdString → Bool} {available total : StdString → ℚ} {line : StdString}

/-- One round of the loop. -/
theorem addMount_eq (list : List DiskInfo) (piece : StdString) :
    addMount accepts available total list piece
      = list ++ ((mountPoint? accepts (seenFields piece)).map (mountEntry available total)).toList := by
  unfold addMount
  rw [sscanf_two_strings (by decide)]
  show _ = list ++ ((mountPoint? accepts ((words (cString piece)).flatMap (cut 255))).map _).toList
  match (words (cString piece)).flatMap (cut 255) with
  | [] => simp [mountPoint?]
  | [device] => simp [mountPoint?]
  | device :: mountPoint :: rest =>
      cases hdevice : accepts device with
      | true => simp [mountPoint?, hdevice, mountEntry]
      | false => simp [mountPoint?, hdevice]

theorem seenFields_append_newline (piece : StdString) :
    seenFields (piece ++ ['\n']) = seenFields piece := by
  rw [seenFields, seenFields, words_cString_append_newline]

theorem seenFields_nil : seenFields [] = [] := by
  rw [seenFields, cString, List.takeWhile_nil, words_of_isSpace (fun c hc => by cases hc)]
  rfl

/-! ## The run -/

theorem seenMountPoints_of_ne_nil (hne : line ≠ []) :
    seenMountPoints accepts line
      = (mountPoint? accepts (seenFields (line.take 511))).toList ++
        seenMountPoints accepts (line.drop 511) := by
  rw [seenMountPoints, cut_of_ne_nil (by decide) hne, List.filterMap_cons]
  cases mountPoint? accepts (seenFields (line.take 511)) <;> rfl

/-- What fits the buffer is seen as one piece. -/
theorem seenMountPoints_of_length_le (hlen : line.length ≤ 511) :
    seenMountPoints accepts line = (mountPoint? accepts (seenFields line)).toList := by
  by_cases hne : line = []
  · rw [hne, seenFields_nil, seenMountPoints, cut_nil]
    rfl
  · rw [seenMountPoints_of_ne_nil hne, List.take_of_length_le hlen, List.drop_of_length_le hlen,
      seenMountPoints, cut_nil]
    exact List.append_nil _

/-- Of a line that fills the buffer, the loop reads a piece. -/
theorem mountLoop_full (hline : '\n' ∉ line) (hlen : 511 ≤ line.length) (s : StdString)
    (list : List DiskInfo) :
    mountLoop accepts available total (line ++ s) list
      = mountLoop accepts available total (line.drop 511 ++ s)
        (list ++ (mountPoint? accepts (seenFields (line.take 511))).toList.map
          (mountEntry available total)) := by
  have hne : line ++ s ≠ [] := by
    have hpos : line ≠ [] := List.ne_nil_of_length_pos (by omega)
    simp [hpos]
  rw [mountLoop, fgets_of_ne_nil 512 hne, readLine_full hline s hlen]
  dsimp only
  rw [addMount_eq, Option.toList_map]

/-- The loop reads a line to its end and adds what it sees of it. -/
theorem mountLoop_line (hline : '\n' ∉ line) (s : StdString) (list : List DiskInfo) :
    mountLoop accepts available total (line ++ '\n' :: s) list
      = mountLoop accepts available total s
        (list ++ (seenMountPoints accepts line).map (mountEntry available total)) := by
  induction hn : line.length using Nat.strong_induction_on generalizing line list with
  | _ n ih =>
      by_cases hroom : line.length < 511
      · -- the line and its end are in the buffer
        rw [mountLoop, fgets_of_ne_nil 512 (by simp), readLine_line hline s hroom]
        dsimp only
        rw [addMount_eq, seenFields_append_newline, seenMountPoints_of_length_le (by omega),
          Option.toList_map]
      · have hne : line ≠ [] := List.ne_nil_of_length_pos (by omega)
        have hrest : '\n' ∉ line.drop 511 := fun hmem => hline (List.mem_of_mem_drop hmem)
        rw [mountLoop_full hline (by omega), ih _ (by rw [List.length_drop]; omega) hrest _ rfl,
          seenMountPoints_of_ne_nil hne, List.map_append, List.append_assoc]

/-- A last line without a line end is read the same way. -/
theorem mountLoop_last (hline : '\n' ∉ line) (list : List DiskInfo) :
    mountLoop accepts available total line list
      = list ++ (seenMountPoints accepts line).map (mountEntry available total) := by
  induction hn : line.length using Nat.strong_induction_on generalizing line list with
  | _ n ih =>
      by_cases hne : line = []
      · rw [hne, mountLoop, seenMountPoints, cut_nil]
        simp
      · by_cases hroom : line.length ≤ 511
        · rw [mountLoop, fgets_of_ne_nil 512 hne, readLine_last hline hroom]
          dsimp only
          rw [addMount_eq, seenMountPoints_of_length_le hroom, Option.toList_map, mountLoop, fgets_nil]
        · have hrest : '\n' ∉ line.drop 511 := fun hmem => hline (List.mem_of_mem_drop hmem)
          have hstep := @mountLoop_full accepts available total line hline (by omega) [] list
          rw [List.append_nil, List.append_nil] at hstep
          rw [hstep, ih _ (by rw [List.length_drop]; omega) hrest _ rfl,
            seenMountPoints_of_ne_nil hne, List.map_append, List.append_assoc]

/-- The scan of any text. -/
theorem mountLoop_eq (content : StdString) (list : List DiskInfo) :
    mountLoop accepts available total content list
      = list ++ (lines content).flatMap fun line =>
          (seenMountPoints accepts line).map (mountEntry available total) := by
  induction content using line_induction generalizing list with
  | nil =>
      rw [mountLoop, fgets_nil]
      simp [lines]
  | last line hne hline =>
      rw [mountLoop_last hline, lines_of_not_mem hline hne]
      simp
  | cons line s hline ih =>
      rw [mountLoop_line hline, ih, lines_append_newline hline, List.flatMap_cons, List.append_assoc]

/-! ## The lines that are shown -/

/-- The pieces show the line exactly when what is seen in them is the line's
own mount point. -/
theorem showsLine_iff :
    ShowsLine accepts line ↔ seenMountPoints accepts line = (mountPoint? accepts (words line)).toList := by
  unfold ShowsLine seenMountPoints
  cases mountPoint? accepts (words line) with
  | none => simp [List.filterMap_eq_nil_iff]
  | some mountPoint =>
      simp only [Option.toList_some, List.filterMap_eq_cons_iff, List.filterMap_eq_nil_iff,
        List.forall_mem_append]
      constructor
      · rintro ⟨before, piece, after, hcut, hpiece, hbefore, hafter⟩
        exact ⟨before, piece, after, hcut, hbefore, hpiece, hafter⟩
      · rintro ⟨before, piece, after, hcut, hbefore, hpiece, hafter⟩
        exact ⟨before, piece, after, hcut, hpiece, hbefore, hafter⟩

theorem mountEntry_injective (available total : StdString → ℚ) :
    Function.Injective (mountEntry available total) := by
  intro m m' h
  exact congrArg DiskInfo.name h

/-- A line that fits the buffer, and whose first two fields fit theirs. -/
theorem showsLine_of_short (hlen : line.length ≤ 511) (hnul : '\x00' ∉ line)
    (hfields : ∀ field ∈ (words line).take 2, field.length ≤ 255) : ShowsLine accepts line := by
  rw [showsLine_iff, seenMountPoints_of_length_le hlen, seenFields, cString_of_not_mem hnul]
  have hne : ∀ field ∈ words line, field ≠ [] := fun field h => (isSpace_of_mem_words h).1
  match hwords : words line with
  | [] => rfl
  | [device] =>
      rw [hwords] at hfields hne
      rw [List.flatMap_cons, cut_of_length_le (hne _ (by simp)) (hfields _ (by simp))]
      rfl
  | device :: mountPoint :: rest =>
      rw [hwords] at hfields hne
      rw [List.flatMap_cons, cut_of_length_le (hne _ (by simp)) (hfields _ (by simp)),
        List.flatMap_cons, cut_of_length_le (hne _ (by simp)) (hfields _ (by simp))]
      rfl

/-- They are the entries of the lines' mount points. -/
theorem mountEntries_eq (accepts : StdString → Bool) (available total : StdString → ℚ)
    (content : StdString) :
    mountEntries accepts available total content
      = ((lines content).flatMap fun line => (mountPoint? accepts (words line)).toList).map
        (mountEntry available total) := by
  rw [mountEntries, List.map_flatMap]
  exact List.flatMap_congr fun line _ => Option.toList_map

/-- The list is the one it should be if and only if the mount points seen in
the pieces of the lines are those of the lines. -/
theorem mountLoop_eq_mountEntries_iff (accepts : StdString → Bool) (available total : StdString → ℚ)
    (content : StdString) :
    mountLoop accepts available total content [] = mountEntries accepts available total content ↔
      (lines content).flatMap (seenMountPoints accepts)
        = (lines content).flatMap fun line => (mountPoint? accepts (words line)).toList := by
  rw [mountLoop_eq, List.nil_append, mountEntries_eq, ← List.map_flatMap]
  exact (List.map_injective_iff.mpr (mountEntry_injective available total)).eq_iff

/-- It is that at every line end if and only if the pieces of each line show
what the line says. -/
theorem mountLoop_eq_mountEntries_at_line_ends_iff (accepts : StdString → Bool)
    (available total : StdString → ℚ) (content : StdString) :
    (∀ head rest, content = head ++ rest → EndsLine head rest →
        mountLoop accepts available total head [] = mountEntries accepts available total head) ↔
      ∀ line ∈ lines content, ShowsLine accepts line := by
  simp only [mountLoop_eq_mountEntries_iff, flatMap_lines_eq_iff, showsLine_iff]

/-- A line that fits the buffer, with a first and a second field that fit
theirs, is shown as it is. The scan of `/proc/mounts` reports one entry for each
device line and no other up to every line end, if and only if the pieces of
each line show what the line says. At the end of the text alone it does, if and
only if the pieces of the lines have the mount points of the lines, in file
order. -/
theorem mountScan_iff (available total : StdString → ℚ) (content : StdString) :
    (∀ line : StdString, line.length ≤ 511 → '\x00' ∉ line →
        (∀ field ∈ (words line).take 2, field.length ≤ 255) → ShowsLine Linux.isDevice line) ∧
      ((∀ head rest, content = head ++ rest → EndsLine head rest →
          Linux.getDisksLoad available total (some head)
            = mountEntries Linux.isDevice available total head) ↔
        ∀ line ∈ lines content, ShowsLine Linux.isDevice line) ∧
      (Linux.getDisksLoad available total (some content)
          = mountEntries Linux.isDevice available total content ↔
        (lines content).flatMap (seenMountPoints Linux.isDevice)
          = (lines content).flatMap fun line => (mountPoint? Linux.isDevice (words line)).toList) :=
  ⟨fun _ hlen hnul hfields => showsLine_of_short hlen hnul hfields,
    mountLoop_eq_mountEntries_at_line_ends_iff Linux.isDevice available total content,
    mountLoop_eq_mountEntries_iff Linux.isDevice available total content⟩

/-- A mount point of 256 characters, and its line in the table. -/
def longMountPoint : StdString :=
  '/' :: List.replicate 255 'm'

def longMountLine : StdString :=
  ['/', 'd', 'e', 'v', '/', 's', 'd', 'a', ' '] ++ longMountPoint ++ [' ', 'e', 'x', 't', '4', '\n']

/-- It is reported without its last character. -/
theorem long_mount_point_truncated :
    (Linux.getDisksLoad (fun _ => 1) (fun _ => 2) (some longMountLine)).map DiskInfo.name
        = [longMountPoint.take 255] ∧
      (mountEntries Linux.isDevice (fun _ => 1) (fun _ => 2) longMountLine).map DiskInfo.name
        = [longMountPoint] ∧
      Linux.getDisksLoad (fun _ => 1) (fun _ => 2) (some longMountLine)
        ≠ mountEntries Linux.isDevice (fun _ => 1) (fun _ => 2) longMountLine := by
  have hreported : (Linux.getDisksLoad (fun _ => 1) (fun _ => 2) (some longMountLine)).map DiskInfo.name
      = [longMountPoint.take 255] := by decide +kernel
  have hexpected : (mountEntries Linux.isDevice (fun _ => 1) (fun _ => 2) longMountLine).map DiskInfo.name
      = [longMountPoint] := by decide +kernel
  refine ⟨hreported, hexpected, fun h => ?_⟩
  rw [h, hexpected] at hreported
  exact absurd hreported (by decide +kernel)

end PacketDistribution.Node

import ControlGroups.Proofs.Container.Markers
import ControlGroups.Proofs.Inspector.CpuQuota
import ControlGroups.Proofs.Scan.Failures

/-! The search for group markers against a scan of the same membership file. The scan opens the
file under the normal spelling of its path and the search under the path as it is spelled, so they
agree about the lines where both spellings lead to the same, and elsewhere the search may fail where
the scan does not. -/
namespace ControlGroups

variable {fs : FileSystem} {path : Path} {node : Node} {lines : List String}

/-- A path that leads to the same as it is spelled and in its normal spelling. -/
def FileSystem.SpelledAlike (fs : FileSystem) (path : Path) : Prop :=
  fs.find path = fs.find path.clean

theorem FileSystem.spelledAlike_of_clean_eq (h : path.clean = path) : fs.SpelledAlike path := by
  rw [SpelledAlike, h]

namespace Scan
variable {ρ σ : Type}

/-- Only a file that is read to its end is scanned without a failure. -/
theorem exists_hasLines {parse : σ → String → σ × Except LineError ρ} {receive : σ → ρ → Scan σ}
    {state : σ} (h : (overFileWith fs path parse receive state).failure = none) :
    ∃ lines, HasLines fs path lines := by
  rw [overFileWith] at h
  split at h
  · cases h
  · rename_i node hf
    rw [Node.eq_file_of_fault (fault_eq_none_of_endIn h)] at hf
    exact ⟨_, _, hf, rfl⟩

end Scan

namespace Container

/-- Whether a line holds the name of a group that only container runtimes give. -/
def Marked (line : String) : Prop :=
  ∃ marker ∈ [":/docker/", ":/kubepods/"], marker.toList <:+: line.toList

theorem isMarked_iff_marked {line : String} : isMarked line = true ↔ Marked line := isMarked_iff

theorem isMarked_lineText_iff {l : Bytes} :
    isMarked (Text.lineText l) = true ↔ isMarked (Text.decodeLossy l) = true := by
  have hm : ∀ marker ∈ groupMarkers, ∀ c ∈ marker.toList, Text.isLineEnd c = false := by
    simp [groupMarkers, Text.isLineEnd]
  rw [isMarked_iff, isMarked_iff, Text.lineText_eq_dropLineEnds, Text.dropLineEnds,
    String.toList_ofList]
  constructor
  · rintro ⟨marker, h, hi⟩
    exact ⟨marker, h, (Text.isInfix_rdropWhile_iff (hm marker h)).mp hi⟩
  · rintro ⟨marker, h, hi⟩
    exact ⟨marker, h, (Text.isInfix_rdropWhile_iff (hm marker h)).mpr hi⟩

/-- The line ends that a scan drops do not matter to the search. -/
theorem any_isMarked_iff {ls : List Bytes} :
    (ls.any fun l => isMarked (Text.decodeLossy l)) = true ↔
      ∃ line ∈ ls.map Text.lineText, Marked line := by
  simp only [List.any_eq_true, List.mem_map, exists_exists_and_eq_and, ← isMarked_iff_marked,
    isMarked_lineText_iff]

theorem hasGroupMarker_of_spelledAlike (h : Scan.HasLines fs path lines)
    (ha : fs.SpelledAlike path) : ∃ found, hasGroupMarker fs path = .ok found ∧
      (found = true ↔ ∃ line ∈ lines, Marked line) := by
  obtain ⟨bs, hf, rfl⟩ := h
  exact ⟨_, hasGroupMarker_of_find (ha.trans hf), any_isMarked_iff⟩

theorem hasGroupMarker_of_error {cause : FileError} (h : fs.find path = .error cause) :
    hasGroupMarker fs path = .error (.fileOpen path cause) := by
  simp only [hasGroupMarker, h]

/-- A line that the search stops at can be read of what the path leads to as it is spelled. -/
def Finds (fs : FileSystem) (path : Path) : Prop :=
  ∃ node, fs.find path = .ok node ∧ ∃ line ∈ Scan.nodeLines node, Marked line

/-- What the path leads to as it is spelled is read to its end, and none of its lines is marked. -/
def FindsNone (fs : FileSystem) (path : Path) : Prop :=
  ∃ node, fs.find path = .ok node ∧ node.fault = none ∧ ∀ line ∈ Scan.nodeLines node, ¬ Marked line

theorem hasGroupMarker_of_marked (h : fs.find path = .ok node)
    (hm : ∃ line ∈ Scan.nodeLines node, Marked line) : hasGroupMarker fs path = .ok true := by
  simp only [hasGroupMarker, h]
  exact if_pos (any_isMarked_iff.mpr hm)

theorem hasGroupMarker_of_not_marked (h : fs.find path = .ok node)
    (hm : ¬ ∃ line ∈ Scan.nodeLines node, Marked line) :
    hasGroupMarker fs path = match node.fault with
      | none => .ok false
      | some e => .error (.readLine path e) := by
  simp only [hasGroupMarker, h]
  exact if_neg (mt any_isMarked_iff.mp hm)

/-- The search answers about what the path leads to as it is spelled, and only about that. -/
theorem hasGroupMarker_answers (fs : FileSystem) (path : Path) :
    (hasGroupMarker fs path = .ok true ↔ Finds fs path) ∧
    (hasGroupMarker fs path = .ok false ↔ FindsNone fs path) := by
  cases hf : fs.find path with
  | error cause => simp [hasGroupMarker_of_error hf, Finds, FindsNone, hf]
  | ok node =>
    simp only [Finds, FindsNone, hf, Except.ok.injEq, exists_eq_left']
    by_cases hm : ∃ line ∈ Scan.nodeLines node, Marked line
    · rw [hasGroupMarker_of_marked hf hm]
      simp [hm]
    · have hn : ∀ line ∈ Scan.nodeLines node, ¬ Marked line := fun line hl hi => hm ⟨line, hl, hi⟩
      rw [hasGroupMarker_of_not_marked hf hm]
      cases node.fault with
      | none => simpa [hm] using hn
      | some cause => simp [hm]

end Container

namespace Inspector
variable {s : Settings} {shared : Detector}

theorem inContainer_ofSettings (hc : s.container = none) (hp : s.membership = some path) :
    (ofSettings s).inContainer fs shared = true ↔
      fs.Opens (s.marker.getD Container.markerPath) ∨ Container.Finds fs path := by
  have hs : (ofSettings s).source = .own (.new (s.marker.getD Container.markerPath) path) := by
    rw [ofSettings, sourceOf_of_none hc (.inr (by simp [hp])), hp, Option.getD_some]
  rw [inContainer, hs, ← (Container.hasGroupMarker_answers fs path).1]
  exact Detector.isContainer_new_iff

end Inspector

namespace Container

theorem finds_iff_of_spelledAlike (h : Scan.HasLines fs path lines) (ha : fs.SpelledAlike path) :
    Finds fs path ↔ ∃ line ∈ lines, Marked line := by
  obtain ⟨found, hg, hf⟩ := hasGroupMarker_of_spelledAlike h ha
  rw [← (hasGroupMarker_answers fs path).1, hg, Except.ok.injEq, hf]

/-- A scan that does not fail is one of lines that the file holds. About those lines the search is
right wherever the path as it is spelled leads to the same file, as it does in its normal spelling,
and so is a detector of these files. Elsewhere the search is about whatever the path as it is
spelled leads to, and it fails where it leads to nothing. Unless it comes to a marked line there,
only a marker file tells that the process is in a container, and without one the limit of the group
is passed over. -/
theorem groupMarker_found_iff_scanned (m : Machine) (path : Path) :
    (∀ (ρ σ : Type) (parse : σ → String → σ × Except LineError ρ) (receive : σ → ρ → Scan σ)
      (state : σ), (Scan.overFileWith m.files path parse receive state).failure = none →
        ∃ lines, Scan.HasLines m.files path lines) ∧
    (path.clean = path → m.files.SpelledAlike path) ∧
    (∀ lines, Scan.HasLines m.files path lines → m.files.SpelledAlike path →
      (∃ found, hasGroupMarker m.files path = .ok found ∧
        (found = true ↔ ∃ line ∈ lines, Marked line)) ∧
      ∀ (s : Settings) (shared : Detector), s.container = none → s.membership = some path →
        ((Inspector.ofSettings s).inContainer m.files shared = true ↔
          m.files.Opens (s.marker.getD markerPath) ∨ ∃ line ∈ lines, Marked line)) ∧
    (hasGroupMarker m.files path = .ok true ↔ Finds m.files path) ∧
    (hasGroupMarker m.files path = .ok false ↔ FindsNone m.files path) ∧
    (∀ cause, m.files.find path = .error cause →
      hasGroupMarker m.files path = .error (.fileOpen path cause)) ∧
    (¬ Finds m.files path → ∀ (s : Settings) (shared : Detector), s.container = none →
      s.membership = some path →
      ((Inspector.ofSettings s).inContainer m.files shared = true ↔
        m.files.Opens (s.marker.getD markerPath)) ∧
      (¬ m.files.Opens (s.marker.getD markerPath) →
        (Inspector.ofSettings s).cpuQuota m shared = .ok (.machine m.cpuCount))) := by
  refine ⟨fun _ _ _ _ _ h => Scan.exists_hasLines h, FileSystem.spelledAlike_of_clean_eq, ?_,
    (hasGroupMarker_answers m.files path).1, (hasGroupMarker_answers m.files path).2,
    fun _ => hasGroupMarker_of_error, ?_⟩
  · intro lines h ha
    refine ⟨hasGroupMarker_of_spelledAlike h ha, fun s shared hc hp => ?_⟩
    rw [Inspector.inContainer_ofSettings hc hp, finds_iff_of_spelledAlike h ha]
  · intro hn s shared hc hp
    have hi : (Inspector.ofSettings s).inContainer m.files shared = true ↔
        m.files.Opens (s.marker.getD markerPath) := by
      rw [Inspector.inContainer_ofSettings hc hp, or_iff_left hn]
    refine ⟨hi, fun hm => Inspector.cpuQuota_of_not_inContainer ?_⟩
    rwa [Bool.eq_false_iff, Ne, hi]

/-- Files of a process in the group of a container. -/
def dockerFiles : FileSystem where
  entries :=
    [(["mounts"], .file (Text.encode "1 1 0:1 / /cpu rw - cgroup c cpu\n")),
      (["groups"], .file (Text.encode "1:cpu:/docker/a\n"))]
  workingDirectory := []

/-- A way to the membership file through a directory that does not exist. -/
def detour : Path := ⟨"missing/../groups"⟩

def detourSettings : Settings :=
  { Settings.none with mounts := some ⟨"mounts"⟩, membership := some detour }

def detourInspector : Inspector := .ofSettings detourSettings

/-- The way leads a scan to the line of the container and a search nowhere. -/
theorem not_groupMarker_found_dockerFiles :
    (Scan.overFile dockerFiles detour Membership.parse (fun _ _ => ⟨(), none⟩) ()).failure = none ∧
      Scan.HasLines dockerFiles detour ["1:cpu:/docker/a"] ∧ Marked "1:cpu:/docker/a" ∧
      hasGroupMarker dockerFiles detour = .error (.fileOpen detour .notFound) ∧
      (∃ controllers, detourInspector.controllers dockerFiles = .ok controllers ∧
        controllers["cpu"]? = some ⟨"/cpu/docker/a"⟩) ∧
      detourInspector.inContainer dockerFiles .ofProcess = false := by
  have hc : (detourInspector.controllers dockerFiles).toOption.map (·["cpu"]?) =
      some (some ⟨"/cpu/docker/a"⟩) := by decide +kernel
  obtain ⟨controllers, hr, hd⟩ := exists_ok_of_toOption_map hc
  refine ⟨by decide, ⟨_, rfl, by decide⟩, isMarked_iff_marked.mp (by decide),
    rfl, ⟨controllers, hr, hd⟩, by decide⟩

/-- The search finds the container where the way is spelled in its normal form. On the detour the
whole machine is the answer. -/
theorem groupMarker_found_iff_scanned_dockerFiles :
    hasGroupMarker dockerFiles ⟨"groups"⟩ = .ok true ∧
      detourInspector.inContainer dockerFiles .ofProcess = false ∧
      detourInspector.cpuQuota ⟨dockerFiles, 4⟩ .ofProcess = .ok (.machine 4) := by
  have hm : Marked "1:cpu:/docker/a" := isMarked_iff_marked.mp (by decide)
  have hl : Scan.HasLines dockerFiles ⟨"groups"⟩ ["1:cpu:/docker/a"] := ⟨_, rfl, by decide⟩
  have ho : ¬ dockerFiles.Opens markerPath := by
    rintro ⟨node, hn⟩
    cases hn
  obtain ⟨-, halike, hfound, -⟩ := groupMarker_found_iff_scanned ⟨dockerFiles, 4⟩ ⟨"groups"⟩
  obtain ⟨⟨found, hg, hf⟩, -⟩ := hfound _ hl (halike (by decide))
  obtain ⟨-, -, -, htrue, -, hlost, hpassed⟩ :=
    groupMarker_found_iff_scanned ⟨dockerFiles, 4⟩ detour
  have hn : ¬ Finds dockerFiles detour := by
    rw [← htrue, hlost .notFound rfl]
    exact nofun
  obtain ⟨hi, hquota⟩ := hpassed hn detourSettings .ofProcess rfl rfl
  rw [hf.mpr ⟨_, List.mem_singleton_self _, hm⟩] at hg
  exact ⟨hg, Bool.eq_false_iff.mpr (mt hi.mp ho), hquota ho⟩

end Container
end ControlGroups

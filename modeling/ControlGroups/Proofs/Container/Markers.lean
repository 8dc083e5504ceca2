import ControlGroups.Container.Detector
import ControlGroups.Proofs.Failure
import ControlGroups.Proofs.Text.Occurrence

/-! What a search for the signs of a container finds. A marker file is there where its path leads
anywhere. The groups of containers are looked for in the decoded lines of a file one by one, and
what is found is what the bytes of the whole file hold. -/
namespace ControlGroups

/-- Whether a path leads to anything as it is spelled. -/
def FileSystem.Opens (fs : FileSystem) (path : Path) : Prop := ∃ node, fs.find path = .ok node

namespace Container

variable {fs : FileSystem} {path : Path} {marker s : String} {line bs : Bytes}

/-- Not to be found is the one failure that is an answer. -/
theorem hasMarkerFile_answers (fs : FileSystem) (path : Path) :
    (hasMarkerFile fs path = .ok true ↔ fs.Opens path) ∧
    (hasMarkerFile fs path = .ok false ↔ fs.find path = .error .notFound) ∧
    ∀ e, hasMarkerFile fs path = .error e ↔ ∃ cause, fs.find path = .error cause ∧
      cause ≠ .notFound ∧ e = .existenceCheck path cause := by
  rw [hasMarkerFile, FileSystem.exists?, FileSystem.Opens]
  cases fs.find path with
  | ok node => simp
  | error cause => cases cause <;> simp [eq_comm]

theorem isMarked_iff :
    isMarked s = true ↔ ∃ marker ∈ groupMarkers, marker.toList <:+: s.toList := by
  simp only [isMarked, List.any_eq_true, occursIn_iff]

theorem ascii_of_mem_groupMarkers (h : marker ∈ groupMarkers) : Text.Ascii marker.toList := by
  have ha : ∀ marker ∈ groupMarkers, ∀ c ∈ marker.toList, 0 < c.toNat ∧ c.toNat < 0x80 := by
    simp [groupMarkers]
  exact ha marker h

theorem encode_ne_nil_of_mem_groupMarkers (h : marker ∈ groupMarkers) :
    Text.encode marker ≠ [] := by
  have hm : ∀ marker ∈ groupMarkers, Text.encode marker ≠ [] := by decide
  exact hm marker h

theorem newline_not_mem_of_mem_groupMarkers (h : marker ∈ groupMarkers) :
    Text.newline ∉ Text.encode marker := by
  have hm : ∀ marker ∈ groupMarkers, '\n' ∉ marker.toList := by decide
  exact Text.newline_not_mem_encode (hm marker h)

theorem isMarked_decodeLossy_iff : isMarked (Text.decodeLossy line) = true ↔
    ∃ marker ∈ groupMarkers, Text.encode marker <:+: line := by
  rw [isMarked_iff]
  constructor
  · rintro ⟨marker, hm, hi⟩
    exact ⟨marker, hm, (Text.isInfix_decodeLossy_iff (ascii_of_mem_groupMarkers hm)).mp hi⟩
  · rintro ⟨marker, hm, hi⟩
    exact ⟨marker, hm, Text.isInfix_decodeLossy_of_isInfix hi⟩

/-- Some line is marked exactly where the bytes of a marker stand in the file. -/
theorem exists_isMarked_iff :
    (∃ line ∈ Text.lines bs, isMarked (Text.decodeLossy line) = true) ↔
      ∃ marker ∈ groupMarkers, Text.encode marker <:+: bs := by
  simp only [isMarked_decodeLossy_iff]
  constructor
  · rintro ⟨line, hl, marker, hm, hi⟩
    have hbs := (Text.isInfix_iff_exists_mem_lines (encode_ne_nil_of_mem_groupMarkers hm)
      (newline_not_mem_of_mem_groupMarkers hm)).mpr ⟨line, hl, hi⟩
    exact ⟨marker, hm, hbs⟩
  · rintro ⟨marker, hm, hi⟩
    obtain ⟨line, hl, hi⟩ :=
      (Text.isInfix_iff_exists_mem_lines (encode_ne_nil_of_mem_groupMarkers hm)
        (newline_not_mem_of_mem_groupMarkers hm)).mp hi
    exact ⟨line, hl, marker, hm, hi⟩

/-- A search of a file that can be read always has an answer. -/
theorem hasGroupMarker_of_find (h : fs.find path = .ok (.file bs)) :
    hasGroupMarker fs path =
      .ok ((Text.lines bs).any fun line => isMarked (Text.decodeLossy line)) := by
  cases hm : (Text.lines bs).any fun line => isMarked (Text.decodeLossy line) with
  | true => simp only [hasGroupMarker, h, Node.lines_file, hm, if_true]
  | false => simp [hasGroupMarker, h, Node.fault, hm]

/-- A readable file is searched to an answer, which is yes exactly where the bytes of a marker stand
at some place of the file. Nothing is said of the bytes before and after: they may be malformed,
break off or end the line. -/
theorem groupMarker_found_iff_bytes (h : fs.find path = .ok (.file bs)) :
    ∃ found, hasGroupMarker fs path = .ok found ∧
      (found = true ↔ ∃ marker ∈ [":/docker/", ":/kubepods/"], ∃ before after,
        bs = before ++ Text.encode marker ++ after) := by
  refine ⟨_, hasGroupMarker_of_find h, ?_⟩
  rw [List.any_eq_true, exists_isMarked_iff]
  constructor
  · rintro ⟨marker, hm, before, after, hb⟩
    exact ⟨marker, hm, before, after, hb.symm⟩
  · rintro ⟨marker, hm, before, after, hb⟩
    exact ⟨marker, hm, before, after, hb.symm⟩

/-- A tree of one membership file. -/
def groupFile (content : Bytes) : FileSystem where
  entries := [(["groups"], .file content)]
  workingDirectory := []

/-- A marker between two sequences that break off is found. -/
theorem groupMarker_found_iff_bytes_groupFile :
    hasGroupMarker (groupFile ([0xF0, 0x9F] ++ Text.encode ":/docker/" ++ [0xE2, 0x82]))
      ⟨"groups"⟩ = .ok true := by
  have hf : (groupFile ([0xF0, 0x9F] ++ Text.encode ":/docker/" ++ [0xE2, 0x82])).find ⟨"groups"⟩ =
      .ok (.file ([0xF0, 0x9F] ++ Text.encode ":/docker/" ++ [0xE2, 0x82])) := rfl
  obtain ⟨found, ha, hi⟩ := groupMarker_found_iff_bytes hf
  rw [ha, hi.mpr ⟨":/docker/", by simp, [0xF0, 0x9F], [0xE2, 0x82], rfl⟩]

end Container

/-- A sign counts only where looking for it succeeds and finds it. -/
theorem Environment.detect_eq_container_iff {fs : FileSystem} {marker membership : Path} :
    Environment.detect fs marker membership = .container ↔
      Container.hasMarkerFile fs marker = .ok true ∨
        Container.hasGroupMarker fs membership = .ok true := by
  rw [detect]
  rcases Container.hasMarkerFile fs marker with e | _ | _ <;>
    rcases Container.hasGroupMarker fs membership with e' | _ | _ <;> simp

theorem Detector.isContainer_new_iff {fs : FileSystem} {marker membership : Path} :
    (Detector.new marker membership).isContainer fs = true ↔
      fs.Opens marker ∨ Container.hasGroupMarker fs membership = .ok true := by
  rw [← (Container.hasMarkerFile_answers fs marker).1]
  exact decide_eq_true_iff.trans Environment.detect_eq_container_iff

end ControlGroups

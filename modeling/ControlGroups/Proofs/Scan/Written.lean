import ControlGroups.Proofs.Membership.Line
import ControlGroups.Proofs.Mount.Line
import ControlGroups.Proofs.Scan.Folding

/-! Tables that were written record by record. A scan of one delivers the records that it was
written from. -/
namespace ControlGroups.Scan

variable {ρ σ : Type} {fs : FileSystem} {path : Path} {parse : String → Except LineError ρ}
  {records : List ρ} {bs : Bytes}

/-- Hands some records to a receiver, up to the first one that it fails on. -/
def deliver (receive : σ → ρ → Scan σ) : σ → List ρ → Scan σ
  | state, [] => ⟨state, none⟩
  | state, record :: records =>
    match receive state record with
    | ⟨next, none⟩ => deliver receive next records
    | stopped => stopped

/-- A file whose scan hands every receiver some records, each once and in their order. -/
def Delivers (fs : FileSystem) (path : Path) (parse : String → Except LineError ρ)
    (records : List ρ) : Prop :=
  ∀ (σ : Type) (receive : σ → ρ → Scan σ) (state : σ),
    overFile fs path parse receive state = deliver receive state records

/-- A receiver that never fails takes all records. -/
theorem deliver_eq_foldl (take : σ → ρ → σ) (state : σ) (records : List ρ) :
    deliver (fun state record => ⟨take state record, none⟩) state records =
      ⟨records.foldl take state, none⟩ := by
  induction records generalizing state with
  | nil => rfl
  | cons record records ih => exact ih (take state record)

theorem overLines_eq_deliver {lines : List String} (h : lines.map parse = records.map .ok)
    (receive : σ → ρ → Scan σ) (state : σ) :
    overLines path (stateless parse) receive state lines = deliver receive state records := by
  induction lines generalizing records state with
  | nil =>
    have hr : records = [] := by simpa using h.symm
    rw [hr]
    rfl
  | cons line lines ih =>
    cases records with
    | nil => cases h
    | cons record records =>
      obtain ⟨hp, ht⟩ := List.cons.inj h
      cases hr : receive state record with
      | mk next failure =>
        cases failure with
        | none =>
          simp only [overLines, stateless, hp, deliver, hr]
          exact ih ht next
        | some e => simp only [overLines, stateless, hp, deliver, hr]

theorem Reads.delivers (h : Reads fs path parse records) : Delivers fs path parse records := by
  intro σ receive state
  obtain ⟨bs, hf, hr⟩ := h
  rw [overFile, overFileWith_file hf]
  exact overLines_eq_deliver hr receive state

/-- A file of lines that records were written as has those records, if each is read back from its
own line. -/
theorem reads_of_written {toLine : ρ → String} (hf : fs.find path.clean = .ok (.file bs))
    (hw : Text.Written (records.map toLine) bs) (hl : ∀ r ∈ records, Text.IsLine (toLine r))
    (hp : ∀ r ∈ records, parse (toLine r) = .ok r) : Reads fs path parse records := by
  have hlines : ∀ line ∈ records.map toLine, Text.IsLine line := by
    intro line hm
    obtain ⟨r, hr, rfl⟩ := List.mem_map.mp hm
    exact hl r hr
  have ht : textLines bs = records.map toLine := by
    rw [textLines, Text.map_lineText_lines, Text.linesOf_of_written hlines hw]
  refine ⟨bs, hf, ?_⟩
  rw [ht, List.map_map]
  exact List.map_congr_left hp

theorem delivers_mounts {mounts : List Mount} (hf : fs.find path.clean = .ok (.file bs))
    (hm : ∀ m ∈ mounts, m.Writable) (hw : Text.Written (mounts.map Mount.toLine) bs) :
    Delivers fs path Mount.parse mounts := by
  refine (reads_of_written hf hw (fun m h => Mount.isLine_toLine (hm m h)) ?_).delivers
  intro m h
  rw [Mount.parse, Mount.ofLine_toLine (hm m h), mapError_ok]

theorem delivers_memberships {memberships : List Membership}
    (hf : fs.find path.clean = .ok (.file bs)) (hm : ∀ m ∈ memberships, m.Writable)
    (hw : Text.Written (memberships.map Membership.toLine) bs) :
    Delivers fs path Membership.parse memberships := by
  refine (reads_of_written hf hw (fun m h => Membership.isLine_toLine (hm m h)) ?_).delivers
  intro m h
  rw [Membership.parse, Membership.ofLine_toLine (hm m h), mapError_ok]

/-- A mount table and a membership file are read back as the records that they were written
from. -/
theorem written_read_back (hf : fs.find path.clean = .ok (.file bs)) :
    (∀ mounts : List Mount, (∀ m ∈ mounts, m.Writable) →
      Text.Written (mounts.map Mount.toLine) bs → Delivers fs path Mount.parse mounts) ∧
    (∀ memberships : List Membership, (∀ m ∈ memberships, m.Writable) →
      Text.Written (memberships.map Membership.toLine) bs →
      Delivers fs path Membership.parse memberships) :=
  ⟨fun _ => delivers_mounts hf, fun _ => delivers_memberships hf⟩

/-- A record of empty strings and separators, without an optional field. -/
def bareMount : Mount where
  id := 0
  parent := 4294967295
  device := ""
  root := "-"
  point := ""
  options := ["", "-"]
  optionalFields := []
  kind := "-"
  source := "-"
  superOptions := ["-", ""]

def sharedMount : Mount :=
  { bareMount with optionalFields := ["shared:1", ""], superOptions := ["-"] }

def unifiedMembership : Membership := ⟨0, [""], ""⟩

/-- A table of two records and a membership file of one, both without the last newline. -/
def writtenFiles : FileSystem where
  entries := [(["mounts"], .file (Text.encode
      "0 4294967295  -  ,- - - - -,\n0 4294967295  -  ,- shared:1  - - - -")),
    (["groups"], .file (Text.encode "0::"))]
  workingDirectory := []

theorem written_read_back_writtenFiles :
    overFile writtenFiles ⟨"mounts"⟩ Mount.parse (fun log m => ⟨log ++ [m], none⟩) [] =
        ⟨[bareMount, sharedMount], none⟩ ∧
      overFile writtenFiles ⟨"groups"⟩ Membership.parse (fun log m => ⟨log ++ [m], none⟩) [] =
        ⟨[unifiedMembership], none⟩ := by
  have hmounts : writtenFiles.find (Path.mk "mounts").clean = .ok (.file (Text.encode
      "0 4294967295  -  ,- - - - -,\n0 4294967295  -  ,- shared:1  - - - -")) :=
    eq_ok_of_toOption (by decide)
  have hgroups : writtenFiles.find (Path.mk "groups").clean = .ok (.file (Text.encode "0::")) :=
    eq_ok_of_toOption (by decide)
  have hm : ∀ m ∈ [bareMount, sharedMount], m.Writable := by
    intro m hm
    simp only [List.mem_cons, List.not_mem_nil, or_false] at hm
    rcases hm with rfl | rfl
    · constructor <;> decide
    · constructor <;> decide
  have hg : ∀ m ∈ [unifiedMembership], m.Writable := by
    intro m hm
    rw [List.mem_singleton] at hm
    subst hm
    constructor <;> decide
  have hdm := (written_read_back hmounts).1 [bareMount, sharedMount] hm (.inr (by decide))
  have hdg := (written_read_back hgroups).2 [unifiedMembership] hg (.inr (by decide))
  constructor
  · rw [hdm, deliver_eq_foldl]
    rfl
  · rw [hdg, deliver_eq_foldl]
    rfl

end ControlGroups.Scan

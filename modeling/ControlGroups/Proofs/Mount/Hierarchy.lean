import ControlGroups.Mount.Hierarchy
import ControlGroups.Proofs.Scan.Failures

/-! The two questions about the unified hierarchy, of which one asks for any record of a mount table
and the other for the first one. Both take the table to its end, so they fail alike, and what one of
them finds the other does not miss. -/
namespace ControlGroups.Mount

variable {fs fs' : FileSystem} {table table' : Path} {records : List Mount} {m : Mount} {e : Error}
  {lines lines' : List String}

theorem isUnified_iff : m.isUnified = true ↔ m.kind = "cgroup2" := beq_iff_eq

theorem isUnifiedRoot_iff :
    m.isUnifiedRoot = true ↔ m.kind = "cgroup2" ∧ m.point = "/sys/fs/cgroup" := by
  rw [isUnifiedRoot, Bool.and_eq_true, isUnified_iff, beq_iff_eq]
  rfl

section Folding

theorem foldl_hasUnifiedRoot (found : Bool) (records : List Mount) :
    records.foldl (fun found m => found || m.isUnifiedRoot) found =
      (found || records.any isUnifiedRoot) := by
  induction records generalizing found with
  | nil => simp
  | cons m records ih => rw [List.foldl_cons, ih, List.any_cons, Bool.or_assoc]

/-- A mount point that was found first is kept. -/
theorem foldl_unifiedMountPoint (found : Option String) (records : List Mount) :
    records.foldl (fun found m => found <|> if m.isUnified then some m.point else none) found =
      found.or ((records.find? isUnified).map point) := by
  induction records generalizing found with
  | nil => simp
  | cons m records ih =>
    rw [List.foldl_cons, ih, List.find?_cons]
    cases m.isUnified <;> cases found <;> simp

theorem hasUnifiedRoot_of_reads (h : Scan.Reads fs table parse records) :
    hasUnifiedRoot fs table = .ok (records.any isUnifiedRoot) := by
  rw [hasUnifiedRoot, Scan.foldFile_ok_of_reads h, foldl_hasUnifiedRoot, Bool.false_or]

theorem unifiedMountPoint_of_reads (h : Scan.Reads fs table parse records) :
    unifiedMountPoint fs table = match records.find? isUnified with
      | none => .error (.noUnifiedMount table)
      | some m => .ok ⟨m.point⟩ := by
  rw [unifiedMountPoint, Scan.foldFile_ok_of_reads h, foldl_unifiedMountPoint, Option.none_or,
    ok_bind]
  cases records.find? isUnified <;> rfl

end Folding

section Answers

theorem hasUnifiedRoot_eq_decide (h : Scan.Reads fs table parse records) :
    hasUnifiedRoot fs table =
      .ok (decide (∃ m ∈ records, m.kind = "cgroup2" ∧ m.point = "/sys/fs/cgroup")) := by
  rw [hasUnifiedRoot_of_reads h, Except.ok.injEq, Bool.eq_iff_iff, List.any_eq_true,
    decide_eq_true_iff]
  simp only [isUnifiedRoot_iff]

theorem unifiedMountPoint_eq_ok_iff (h : Scan.Reads fs table parse records) (point : Path) :
    unifiedMountPoint fs table = .ok point ↔ ∃ before m after, records = before ++ m :: after ∧
      m.kind = "cgroup2" ∧ (∀ other ∈ before, other.kind ≠ "cgroup2") ∧ point = ⟨m.point⟩ := by
  rw [unifiedMountPoint_of_reads h]
  constructor
  · intro hp
    cases hf : records.find? isUnified with
    | none =>
      rw [hf] at hp
      cases hp
    | some m =>
      rw [hf] at hp
      obtain ⟨hm, before, after, hs, hb⟩ := List.find?_eq_some_iff_append.mp hf
      refine ⟨before, m, after, hs, isUnified_iff.mp hm, fun other ho hk => ?_,
        (Except.ok.inj hp).symm⟩
      have hu := hb other ho
      rw [isUnified_iff.mpr hk] at hu
      cases hu
  · rintro ⟨before, m, after, rfl, hm, hb, rfl⟩
    have hf : (before ++ m :: after).find? isUnified = some m := by
      refine List.find?_eq_some_iff_append.mpr
        ⟨isUnified_iff.mpr hm, before, after, rfl, fun other ho => ?_⟩
      rw [Bool.not_eq_true', Bool.eq_false_iff]
      exact fun hu => hb other ho (isUnified_iff.mp hu)
    rw [hf]

theorem unifiedMountPoint_eq_error_iff (h : Scan.Reads fs table parse records) :
    unifiedMountPoint fs table = .error e ↔
      e = .noUnifiedMount table ∧ ∀ m ∈ records, m.kind ≠ "cgroup2" := by
  have hn : records.find? isUnified = none ↔ ∀ m ∈ records, m.kind ≠ "cgroup2" := by
    simp only [List.find?_eq_none, isUnified_iff, ne_eq]
  rw [unifiedMountPoint_of_reads h, ← hn]
  cases records.find? isUnified with
  | none => simp [eq_comm]
  | some m => simp

end Answers

section Failures

theorem hasUnifiedRoot_eq_error_iff :
    hasUnifiedRoot fs table = .error e ↔ Scan.Broken fs table parse e :=
  Scan.foldFile_ok_eq_error_iff _

theorem unifiedMountPoint_of_broken (h : Scan.Broken fs table parse e) :
    unifiedMountPoint fs table = .error e := by
  rw [unifiedMountPoint, bind_eq_error_iff]
  exact .inl ((Scan.foldFile_ok_eq_error_iff _).mpr h)

end Failures

section Agreement

/-- Any record at the canonical mount point is asked for, so the order of the lines does not
matter. -/
theorem hasUnifiedRoot_of_perm (hr : Scan.Reads fs table parse records)
    (h : Scan.HasLines fs table lines) (h' : Scan.HasLines fs' table' lines')
    (hp : lines.Perm lines') : hasUnifiedRoot fs' table' = hasUnifiedRoot fs table := by
  obtain ⟨records', hm, hr'⟩ := Scan.exists_reads_of_perm hr h h' hp
  rw [hasUnifiedRoot_of_reads hr', hasUnifiedRoot_of_reads hr, hm.any_eq]

theorem exists_unifiedMountPoint (h : hasUnifiedRoot fs table = .ok true) :
    ∃ point, unifiedMountPoint fs table = .ok point := by
  obtain ⟨records, hr, -⟩ := Scan.foldFile_eq_ok_iff.mp h
  rw [hasUnifiedRoot_eq_decide hr, Except.ok.injEq, decide_eq_true_iff] at h
  obtain ⟨m, hm, hk, -⟩ := h
  cases hp : unifiedMountPoint fs table with
  | ok point => exact ⟨point, rfl⟩
  | error e => exact absurd hk (((unifiedMountPoint_eq_error_iff hr).mp hp).2 m hm)

theorem hasUnifiedRoot_of_unifiedMountPoint
    (h : unifiedMountPoint fs table = .ok ⟨"/sys/fs/cgroup"⟩) :
    hasUnifiedRoot fs table = .ok true := by
  obtain ⟨_, hs, -⟩ := bind_eq_ok_iff.mp h
  obtain ⟨records, hr, -⟩ := Scan.foldFile_eq_ok_iff.mp hs
  obtain ⟨before, m, after, rfl, hk, -, hp⟩ := (unifiedMountPoint_eq_ok_iff hr _).mp h
  rw [hasUnifiedRoot_eq_decide hr, Except.ok.injEq, decide_eq_true_iff]
  exact ⟨m, List.mem_append_cons_self, hk, (Path.mk.inj hp).symm⟩

/-- The unified hierarchy is detected in two ways that agree. A broken table ends both in the same
way, wherever its first bad line stands. In any other table one tells whether some record mounts the
hierarchy at its canonical mount point, in whatever order the lines are, and the other one finds the
first record that mounts it anywhere. So the first does not answer yes where the second fails, nor
no where the second finds the canonical mount point. -/
theorem unified_detectors_agree (fs : FileSystem) (table : Path) :
    (∀ e, hasUnifiedRoot fs table = .error e ↔ Scan.Broken fs table parse e) ∧
    (∀ e, unifiedMountPoint fs table = .error e ↔ Scan.Broken fs table parse e ∨
      e = .noUnifiedMount table ∧
        ∃ records, Scan.Reads fs table parse records ∧ ∀ m ∈ records, m.kind ≠ "cgroup2") ∧
    (∀ records, Scan.Reads fs table parse records →
      hasUnifiedRoot fs table =
          .ok (decide (∃ m ∈ records, m.kind = "cgroup2" ∧ m.point = "/sys/fs/cgroup")) ∧
        (∀ point, unifiedMountPoint fs table = .ok point ↔
          ∃ before m after, records = before ++ m :: after ∧ m.kind = "cgroup2" ∧
            (∀ other ∈ before, other.kind ≠ "cgroup2") ∧ point = ⟨m.point⟩) ∧
        (∀ e, unifiedMountPoint fs table = .error e ↔
          e = .noUnifiedMount table ∧ ∀ m ∈ records, m.kind ≠ "cgroup2") ∧
        ∀ fs' table' lines lines', Scan.HasLines fs table lines →
          Scan.HasLines fs' table' lines' → lines.Perm lines' →
            hasUnifiedRoot fs' table' = hasUnifiedRoot fs table) ∧
    (hasUnifiedRoot fs table = .ok true → ∃ point, unifiedMountPoint fs table = .ok point) ∧
    (unifiedMountPoint fs table = .ok ⟨"/sys/fs/cgroup"⟩ →
      hasUnifiedRoot fs table = .ok true) := by
  refine ⟨fun _ => hasUnifiedRoot_eq_error_iff, ?_, ?_, exists_unifiedMountPoint,
    hasUnifiedRoot_of_unifiedMountPoint⟩
  · intro e
    constructor
    · intro he
      obtain ⟨e', hb⟩ | ⟨records, hr⟩ := Scan.broken_or_reads fs table parse
      · cases he.symm.trans (unifiedMountPoint_of_broken hb)
        exact .inl hb
      · obtain ⟨he, hn⟩ := (unifiedMountPoint_eq_error_iff hr).mp he
        exact .inr ⟨he, records, hr, hn⟩
    · rintro (hb | ⟨he, records, hr, hn⟩)
      · exact unifiedMountPoint_of_broken hb
      · exact (unifiedMountPoint_eq_error_iff hr).mpr ⟨he, hn⟩
  · intro records hr
    exact ⟨hasUnifiedRoot_eq_decide hr, unifiedMountPoint_eq_ok_iff hr,
      fun _ => unifiedMountPoint_eq_error_iff hr,
      fun _ _ _ _ h h' hp => hasUnifiedRoot_of_perm hr h h' hp⟩

/-- The unified hierarchy beside its canonical mount point. -/
def hybridMount : Mount := ⟨2, 1, "0:2", "/", "/mnt", ["rw"], [], "cgroup2", "c", ["rw"]⟩

def hybridLine : String := "2 1 0:2 / /mnt rw - cgroup2 c rw"

def rootMount : Mount := ⟨3, 1, "0:2", "/", "/sys/fs/cgroup", ["rw"], [], "cgroup2", "c", ["rw"]⟩

def rootLine : String := "3 1 0:2 / /sys/fs/cgroup rw - cgroup2 c rw"

/-- Two tables of the same lines, and one with a bad line behind a record that answers both
questions. -/
def hierarchyFiles : FileSystem where
  entries := [(["hybrid"], .file (Text.encode (hybridLine ++ "\n" ++ rootLine ++ "\n"))),
    (["swapped"], .file (Text.encode (rootLine ++ "\r\n" ++ hybridLine))),
    (["broken"], .file (Text.encode (rootLine ++ "\nbroken\n")))]
  workingDirectory := []

theorem unified_detectors_agree_hierarchyFiles :
    hasUnifiedRoot hierarchyFiles ⟨"hybrid"⟩ = .ok true ∧
      unifiedMountPoint hierarchyFiles ⟨"hybrid"⟩ = .ok ⟨"/mnt"⟩ ∧
      hasUnifiedRoot hierarchyFiles ⟨"swapped"⟩ = .ok true ∧
      hasUnifiedRoot hierarchyFiles ⟨"broken"⟩ =
        .error (.parse ⟨"broken"⟩ (.mount (.malformed "broken"))) ∧
      unifiedMountPoint hierarchyFiles ⟨"broken"⟩ =
        .error (.parse ⟨"broken"⟩ (.mount (.malformed "broken"))) := by
  have hl : Scan.HasLines hierarchyFiles ⟨"hybrid"⟩ [hybridLine, rootLine] :=
    ⟨_, eq_ok_of_toOption rfl, by decide +kernel⟩
  have hl' : Scan.HasLines hierarchyFiles ⟨"swapped"⟩ [rootLine, hybridLine] :=
    ⟨_, eq_ok_of_toOption rfl, by decide +kernel⟩
  have hhybrid : parse hybridLine = .ok hybridMount := eq_ok_of_toOption (by decide)
  have hroot : parse rootLine = .ok rootMount := eq_ok_of_toOption (by decide)
  have hr : Scan.Reads hierarchyFiles ⟨"hybrid"⟩ parse [hybridMount, rootMount] := by
    obtain ⟨bs, hf, hs⟩ := hl
    refine ⟨bs, hf, ?_⟩
    rw [hs, List.map_cons, List.map_singleton, hhybrid, hroot]
    rfl
  have hlb : Scan.HasLines hierarchyFiles ⟨"broken"⟩ ([rootLine] ++ "broken" :: []) :=
    ⟨_, eq_ok_of_toOption rfl, by decide +kernel⟩
  have hb : Scan.Broken hierarchyFiles ⟨"broken"⟩ parse
      (.parse ⟨"broken"⟩ (.mount (.malformed "broken"))) :=
    .refused hlb.shows (by simp [hroot]) rfl
  obtain ⟨-, -, hreads, -, -⟩ := unified_detectors_agree hierarchyFiles ⟨"hybrid"⟩
  obtain ⟨hany, hfirst, -, hsame⟩ := hreads _ hr
  obtain ⟨hbroken, hbroken', -⟩ := unified_detectors_agree hierarchyFiles ⟨"broken"⟩
  have htrue : hasUnifiedRoot hierarchyFiles ⟨"hybrid"⟩ = .ok true := hany.trans (by decide)
  refine ⟨htrue, ?_, ?_, (hbroken _).mpr hb, (hbroken' _).mpr (.inl hb)⟩
  · exact (hfirst _).mpr ⟨[], hybridMount, [rootMount], rfl, rfl, by simp, rfl⟩
  · exact (hsame _ _ _ _ hl hl' (.swap ..)).trans htrue

end Agreement

end ControlGroups.Mount

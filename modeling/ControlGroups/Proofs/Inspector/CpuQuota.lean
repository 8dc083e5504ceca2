import ControlGroups.Proofs.Inspector.Asking
import ControlGroups.Proofs.Machine.CpuCount

/-! The processor time of a process from the files up. The tables of mounts and memberships have to
be readable, and nothing that the files of a quota hold can make the answer fail. -/
namespace ControlGroups

theorem Cores.of?_eq_some_iff {quota period : Nat} {cores : Cores} :
    Cores.of? quota period = some cores ↔ cores.quota = quota ∧ cores.period = period := by
  obtain ⟨q, p, hq, hp⟩ := cores
  simp only [Cores.of?]
  split
  · simp only [Option.some.injEq, mk.injEq]
    exact ⟨fun h => ⟨h.1.symm, h.2.symm⟩, fun h => ⟨h.1.symm, h.2.symm⟩⟩
  · rename_i h
    simp only [reduceCtorEq, false_iff]
    rintro ⟨rfl, rfl⟩
    exact h ⟨hq, hp⟩

theorem CpuMax.cores?_eq_some_iff {max : CpuMax} {cores : Cores} :
    max.cores? = some cores ↔ max.quota = some cores.quota ∧ max.period = cores.period := by
  simp only [cores?, Option.bind_eq_some_iff, Cores.of?_eq_some_iff]
  constructor
  · rintro ⟨quota, hq, rfl, hp⟩
    exact ⟨hq, hp.symm⟩
  · rintro ⟨hq, hp⟩
    exact ⟨cores.quota, hq, rfl, hp.symm⟩

theorem Unified.cpuQuota_eq_some_iff {fs : FileSystem} {u : Unified} {cores : Cores} :
    u.cpuQuota fs = .ok (some cores) ↔ ∃ max : CpuMax,
      Attribute.Reading fs (u.directory.join ⟨"cpu.max"⟩) Attribute.cpuMax (.ok (some max)) ∧
        max.quota = some cores.quota ∧ max.period = cores.period := by
  simp only [cpuQuota, Attribute.readIn, map_eq_ok_iff, Option.bind_eq_some_iff,
    CpuMax.cores?_eq_some_iff, Attribute.reading_iff Attribute.neverBlank_cpuMax]
  constructor
  · rintro ⟨_, hr, max, rfl, hm⟩
    exact ⟨max, hr, hm⟩
  · rintro ⟨max, hr, hm⟩
    exact ⟨some max, hr, max, rfl, hm⟩

theorem Controllers.cpuQuota_eq_some_iff {fs : FileSystem} {controllers : Controllers}
    {cores : Cores} : controllers.cpuQuota fs = .ok (some cores) ↔
      ∃ directory, controllers["cpu"]? = some directory ∧
        Attribute.Reading fs (directory.join ⟨"cpu.cfs_quota_us"⟩) Attribute.cfsQuota
          (.ok (some (some cores.quota))) ∧
        Attribute.Reading fs (directory.join ⟨"cpu.cfs_period_us"⟩) Attribute.cfsPeriod
          (.ok (some cores.period)) := by
  rw [cpuQuota, cpu]
  cases hd : controllers["cpu"]? with
  | none => simp
  | some directory =>
    simp only [Option.some.injEq, exists_eq_left']
    constructor
    · intro h
      obtain ⟨quota, hq, h⟩ := bind_eq_ok_iff.mp h
      rcases quota with _ | _ | quota
      · cases h
      · cases h
      · obtain ⟨period, hp, h⟩ := bind_eq_ok_iff.mp h
        rcases period with _ | period
        · cases h
        · have hc := Cores.of?_eq_some_iff.mp (Except.ok.inj h)
          have hquota : (cores.quota : Int) = quota := by
            have := cores.quota_pos
            omega
          have hperiod : (cores.period : Int) = period := by
            have := cores.period_pos
            omega
          rw [hquota, hperiod]
          exact ⟨(Attribute.reading_iff Attribute.neverBlank_cfsQuota).mpr hq,
            (Attribute.reading_iff Attribute.neverBlank_cfsPeriod).mpr hp⟩
    · rintro ⟨hq, hp⟩
      have hq' := (Attribute.reading_iff Attribute.neverBlank_cfsQuota).mp hq
      have hp' := (Attribute.reading_iff Attribute.neverBlank_cfsPeriod).mp hp
      simp only [Attribute.readIn, hq', hp', ok_bind, Option.bind_some, Except.ok.injEq]
      exact Cores.of?_eq_some_iff.mpr ⟨(Int.toNat_natCast _).symm, (Int.toNat_natCast _).symm⟩

namespace Inspector
variable {fs : FileSystem} {i : Inspector}

/-- The files of the hierarchy that counts limit a process to a share of processor time. -/
inductive Enforces (fs : FileSystem) (i : Inspector) : Cores → Prop
  | unified {max : CpuMax} {cores : Cores} (h : i.isUnified fs = .ok true)
      (hr : Attribute.Reading fs (i.unified.directory.join ⟨"cpu.max"⟩) Attribute.cpuMax
        (.ok (some max)))
      (hq : max.quota = some cores.quota) (hp : max.period = cores.period) : Enforces fs i cores
  | controller {controllers : Controllers} {directory : Path} {cores : Cores}
      (h : i.isUnified fs = .ok false) (hc : i.controllers fs = .ok controllers)
      (hd : controllers["cpu"]? = some directory)
      (hq : Attribute.Reading fs (directory.join ⟨"cpu.cfs_quota_us"⟩) Attribute.cfsQuota
        (.ok (some (some cores.quota))))
      (hp : Attribute.Reading fs (directory.join ⟨"cpu.cfs_period_us"⟩) Attribute.cfsPeriod
        (.ok (some cores.period))) : Enforces fs i cores

theorem enforces_iff {cores : Cores} : Enforces fs i cores ↔
    i.ask fs (Unified.cpuQuota fs) (Controllers.cpuQuota fs) = .ok (.ok (some cores)) := by
  rw [ask_eq_ok_iff]
  constructor
  · intro h
    cases h with
    | unified h hr hq hp =>
      exact .inl ⟨h, Unified.cpuQuota_eq_some_iff.mpr ⟨_, hr, hq, hp⟩⟩
    | controller h hc hd hq hp =>
      exact .inr ⟨h, _, hc, Controllers.cpuQuota_eq_some_iff.mpr ⟨_, hd, hq, hp⟩⟩
  · rintro (⟨h, hu⟩ | ⟨h, controllers, hc, hq⟩)
    · obtain ⟨max, hr, hq, hp⟩ := Unified.cpuQuota_eq_some_iff.mp hu
      exact .unified h hr hq hp
    · obtain ⟨directory, hd, hq, hp⟩ := Controllers.cpuQuota_eq_some_iff.mp hq
      exact .controller h hc hd hq hp

/-- The tables that say which files hold a quota cannot be read. -/
def TablesFail (fs : FileSystem) (i : Inspector) (e : Error) : Prop :=
  i.isUnified fs = .error e ∨ i.isUnified fs = .ok false ∧ i.controllers fs = .error e

variable {m : Machine} {shared : Detector}

theorem cpuQuota_of_not_inContainer (h : i.inContainer m.files shared = false) :
    i.cpuQuota m shared = .ok (.machine m.cpuCount) := by
  simp [cpuQuota, h]

theorem cpuQuota_eq_error_iff {e : Error} (h : i.inContainer m.files shared = true) :
    i.cpuQuota m shared = .error e ↔ TablesFail m.files i e := by
  rw [cpuQuota, if_pos h, map_eq_error_iff, ask_eq_error_iff, TablesFail]

theorem cpuQuota_eq_share_iff {cores : Cores} (h : i.inContainer m.files shared = true) :
    i.cpuQuota m shared = .ok (.share cores) ↔ Enforces m.files i cores := by
  rw [cpuQuota, if_pos h, map_eq_ok_iff, enforces_iff]
  constructor
  · rintro ⟨limit, ha, hl⟩
    rcases limit with _ | _ | cores'
    · cases hl
    · cases hl
    · cases hl
      exact ha
  · exact fun ha => ⟨_, ha, rfl⟩

theorem eq_cpuCount_of_cpuQuota_eq_machine {count : UInt64}
    (h : i.cpuQuota m shared = .ok (.machine count)) : count = m.cpuCount := by
  rw [cpuQuota] at h
  split at h
  · obtain ⟨limit, -, hl⟩ := map_eq_ok_iff.mp h
    rcases limit with _ | _ | cores
    · cases hl
      rfl
    · cases hl
      rfl
    · cases hl
  · cases h
    rfl

theorem cpuQuota_eq_machine_iff {count : UInt64} (h : i.inContainer m.files shared = true) :
    i.cpuQuota m shared = .ok (.machine count) ↔ count = m.cpuCount ∧
      (∀ e, ¬ TablesFail m.files i e) ∧ ∀ cores, ¬ Enforces m.files i cores := by
  simp only [← cpuQuota_eq_error_iff h, ← cpuQuota_eq_share_iff h]
  constructor
  · intro hq
    refine ⟨eq_cpuCount_of_cpuQuota_eq_machine hq, fun e he => ?_, fun cores hc => ?_⟩
    · cases hq.symm.trans he
    · cases hq.symm.trans hc
  · rintro ⟨rfl, he, hc⟩
    cases hq : i.cpuQuota m shared with
    | error e => exact absurd hq (he e)
    | ok allowance =>
      cases allowance with
      | share cores => exact absurd hq (hc cores)
      | machine count => rw [eq_cpuCount_of_cpuQuota_eq_machine hq]

/-- As a number of processors, a share is the quotient of its two numbers, and the machine is all
processors that it has. -/
theorem toFloat_of_cpuQuota {allowance : Allowance} (h : i.cpuQuota m shared = .ok allowance) :
    (∃ cores, allowance = .share cores ∧
      allowance.toFloat = Float.ofNat cores.quota / Float.ofNat cores.period) ∨
    allowance = .machine m.cpuCount ∧ allowance.toFloat = Float.ofNat m.cpuCount.toNat := by
  cases allowance with
  | share cores => exact .inl ⟨cores, rfl, rfl⟩
  | machine count =>
    obtain rfl := eq_cpuCount_of_cpuQuota_eq_machine h
    exact .inr ⟨rfl, rfl⟩

/-- A machine has the processors that its list adds up to, or those that the system reports where
there is no such list or it adds up to nothing. Outside a container no file matters to the answer
but this list. In a container the answer fails exactly where the tables do and with their error,
and else it is the share that the files enforce, or the machine where they enforce none. So a
change to any other files, those of the quota among them, never turns a success into a failure. As
a number, a share is the quotient of its quota and its period, and the machine is its count. -/
theorem cpuQuota_policy (m : Machine) (shared : Detector) (i : Inspector) :
    (∀ count, Machine.Lists m.files Machine.onlinePath count → count ≠ 0 → m.cpuCount = count) ∧
    ((∀ count, Machine.Lists m.files Machine.onlinePath count → count = 0) →
      m.cpuCount = m.processors) ∧
    (i.inContainer m.files shared = false → i.cpuQuota m shared = .ok (.machine m.cpuCount)) ∧
    (i.inContainer m.files shared = true →
      (∀ e, i.cpuQuota m shared = .error e ↔ TablesFail m.files i e) ∧
      (∀ cores, i.cpuQuota m shared = .ok (.share cores) ↔ Enforces m.files i cores) ∧
      (∀ count, i.cpuQuota m shared = .ok (.machine count) ↔
        count = m.cpuCount ∧ (∀ e, ¬ TablesFail m.files i e) ∧
          ∀ cores, ¬ Enforces m.files i cores)) ∧
    (∀ allowance, i.cpuQuota m shared = .ok allowance →
      (∃ cores, allowance = .share cores ∧
        allowance.toFloat = Float.ofNat cores.quota / Float.ofNat cores.period) ∨
      allowance = .machine m.cpuCount ∧ allowance.toFloat = Float.ofNat m.cpuCount.toNat) ∧
    (∀ (m' : Machine) (shared' : Detector),
      i.inContainer m'.files shared' = i.inContainer m.files shared →
      m'.files.find i.mounts.clean = m.files.find i.mounts.clean →
      m'.files.find i.membership.clean = m.files.find i.membership.clean →
      ∀ e, i.cpuQuota m' shared' = .error e ↔ i.cpuQuota m shared = .error e) := by
  refine ⟨fun count => Machine.cpuCount_of_lists, Machine.cpuCount_of_not_lists,
    cpuQuota_of_not_inContainer, fun h => ⟨fun e => cpuQuota_eq_error_iff h,
    fun cores => cpuQuota_eq_share_iff h, fun count => cpuQuota_eq_machine_iff h⟩,
    fun allowance => toFloat_of_cpuQuota, ?_⟩
  intro m' shared' hin hm hc e
  cases h : i.inContainer m.files shared with
  | false =>
    rw [cpuQuota_of_not_inContainer h, cpuQuota_of_not_inContainer (hin.trans h)]
    simp
  | true =>
    rw [cpuQuota_eq_error_iff h, cpuQuota_eq_error_iff (hin.trans h), TablesFail, TablesFail,
      isUnified_congr hm, controllers_congr hm hc]

end Inspector
end ControlGroups

import Projector.Streaming.Feeding

namespace Projector.Streaming
open Lib

section Ledger
variable {limits : StreamingLimits} {w v : Workspace}

/-- The peak is the most that was ever live, and the limits are kept. -/
structure Accounts (limits : StreamingLimits) (w : Workspace) : Prop where
  latest : w.liveHistory.head? = some w.liveBytes
  peak : w.peakLiveBytes = w.liveHistory.foldr max 0
  spilled : w.liveBytes ≤ w.totalWritten
  temporary : ∀ allowed, limits.maxTemporaryBytes = some allowed → w.liveBytes ≤ allowed
  spill : ∀ allowed, limits.maxSpillBytes = some allowed → w.totalWritten ≤ allowed

theorem Accounts.opened (limits : StreamingLimits) (estimate : Nat) :
    Accounts limits { Workspace.empty with availableEstimate := estimate } :=
  ⟨rfl, rfl, Nat.le_refl _, fun _ _ => Nat.zero_le _, fun _ _ => Nat.zero_le _⟩

theorem Accounts.live_le_peak (h : Accounts limits w) : w.liveBytes ≤ w.peakLiveBytes := by
  obtain ⟨older, hhistory⟩ := List.head?_eq_some_iff.mp h.latest
  rw [h.peak, hhistory, List.foldr_cons]
  exact Nat.le_max_left _ _

/-- Bytes that are charged are live and written. -/
theorem Accounts.charged {amount : Nat} (h : Accounts limits w)
    (hlive : v.liveBytes = w.liveBytes + amount)
    (htotal : v.totalWritten = w.totalWritten + amount)
    (hpeak : v.peakLiveBytes = max w.peakLiveBytes v.liveBytes)
    (hhistory : v.liveHistory = v.liveBytes :: w.liveHistory)
    (htemporary : ∀ allowed, limits.maxTemporaryBytes = some allowed → v.liveBytes ≤ allowed)
    (hspill : ∀ allowed, limits.maxSpillBytes = some allowed → v.totalWritten ≤ allowed) :
    Accounts limits v := by
  have hspilled := h.spilled
  refine ⟨by rw [hhistory]; rfl, ?_, by omega, htemporary, hspill⟩
  rw [hhistory, hpeak, h.peak, List.foldr_cons]
  exact Nat.max_comm _ _

theorem Accounts.released (h : Accounts limits w) (hlive : v.liveBytes ≤ w.liveBytes)
    (htotal : v.totalWritten = w.totalWritten) (hpeak : v.peakLiveBytes = w.peakLiveBytes)
    (hhistory : v.liveHistory = v.liveBytes :: w.liveHistory) : Accounts limits v := by
  have hspilled := h.spilled
  have hle := h.live_le_peak
  refine ⟨by rw [hhistory]; rfl, ?_, by omega, fun allowed ha => ?_, fun allowed ha => ?_⟩
  · rw [hhistory, List.foldr_cons, ← h.peak, hpeak]
    omega
  · exact le_trans hlive (h.temporary allowed ha)
  · exact htotal ▸ h.spill allowed ha

/-- Nothing in the accounts tells two workspaces apart. -/
theorem Accounts.same (h : Accounts limits w) (hlive : v.liveBytes = w.liveBytes)
    (hpeak : v.peakLiveBytes = w.peakLiveBytes) (htotal : v.totalWritten = w.totalWritten)
    (hhistory : v.liveHistory = w.liveHistory) : Accounts limits v :=
  ⟨by rw [hhistory, hlive]; exact h.latest, by rw [hpeak, hhistory]; exact h.peak,
    by rw [hlive, htotal]; exact h.spilled, hlive ▸ h.temporary, htotal ▸ h.spill⟩

end Ledger

section Books
variable {τ : Type} {env : Environment} {limits : StreamingLimits} {start : Nat} {w v : World τ}

/-- The bytes charged for the file that is being written. -/
def charged (w : World τ) : Nat := (w.partialRun.map PartialRun.accounted).getD 0

def writing (w : World τ) : Option Path := w.partialRun.bind PartialRun.path

def registered (w : World τ) : List Path := w.workspace.runs.map Prod.fst

/-- The books of a workspace: what is live is what the registered runs take, and what is charged
for the run that is being written; unless an `unlink` fails, no other file is there. -/
structure Books (env : Environment) (limits : StreamingLimits) (start : Nat) (w : World τ) :
    Prop where
  later : start ≤ w.clock
  accounts : Accounts limits w.workspace
  live : w.workspace.liveBytes = (w.workspace.runs.map Prod.snd).sum + charged w
  sizes : ∀ entry ∈ w.workspace.runs, (w.files entry.1).map List.length = some entry.2
  distinct : (registered w).Nodup
  named : ∀ path ∈ registered w, path < w.nextPath
  files : (∀ now, env.unlinkFault now = none) →
    ∀ path, (w.files path).isSome → path ∈ registered w ∨ writing w = some path
  fresh : ∀ path, writing w = some path → path ∉ registered w ∧ path < w.nextPath

theorem Books.ticked (h : Books env limits start w) (hl : Later w v) : Books env limits start v := by
  obtain ⟨calls, rfl⟩ := hl
  exact ⟨by have := h.later; dsimp only; omega, h.accounts, h.live, h.sizes, h.distinct, h.named,
    h.files, h.fresh⟩

theorem Books.sooner {earlier : Nat} (h : Books env limits start w) (hle : earlier ≤ start) :
    Books env limits earlier w :=
  { h with later := le_trans hle h.later }

/-- A payload of this many bytes does not fit the header, and no limit keeps it from being
written. -/
structure Unpackable (limits : StreamingLimits) (payloadBytes : Nat) : Prop where
  large : 256 ^ 8 ≤ payloadBytes
  temporary : ∀ allowed, limits.maxTemporaryBytes = some allowed → 256 ^ 8 ≤ allowed
  spill : ∀ allowed, limits.maxSpillBytes = some allowed → 256 ^ 8 ≤ allowed

/-- What a write is not undone after: a cancellation, or a payload that the header cannot hold. -/
def Interrupted (env : Environment) (limits : StreamingLimits) (start limit : Nat) (v : World τ) :
    Prop :=
  CancelledIn env start v ∨ Unpackable limits limit

/-- The registered runs and the files that were there are left alone. -/
structure Apart (w v : World τ) : Prop where
  runs : v.workspace.runs = w.workspace.runs
  passes : v.workspace.mergePasses = w.workspace.mergePasses
  files : ∀ path ∈ registered w, v.files path = w.files path
  nextPath : w.nextPath ≤ v.nextPath

theorem Apart.refl (w : World τ) : Apart w w := ⟨rfl, rfl, fun _ _ => rfl, Nat.le_refl _⟩

theorem Apart.trans {u v w : World τ} (h : Apart u v) (h' : Apart v w) : Apart u w where
  runs := h'.runs.trans h.runs
  passes := h'.passes.trans h.passes
  files path hpath := by
    have hsame : registered v = registered u := congrArg (List.map Prod.fst) h.runs
    exact (h'.files path (hsame ▸ hpath)).trans (h.files path hpath)
  nextPath := le_trans h.nextPath h'.nextPath

theorem Later.apart (h : Later w v) : Apart w v := by
  obtain ⟨calls, rfl⟩ := h
  exact ⟨rfl, rfl, fun _ _ => rfl, Nat.le_refl _⟩

/-- The books at the end of an operation: nothing is being written, unless it was interrupted. -/
structure Closed (env : Environment) (limits : StreamingLimits) (start limit : Nat)
    (w : World τ) : Prop where
  books : Books env limits start w
  closed : w.partialRun = none ∨ Interrupted env limits start limit w

theorem Unpackable.mono {n m : Nat} (h : Unpackable limits n) (hle : n ≤ m) :
    Unpackable limits m := ⟨le_trans h.large hle, h.temporary, h.spill⟩

theorem Closed.mono {n m : Nat} (h : Closed env limits start n w) (hle : n ≤ m) :
    Closed env limits start m w :=
  ⟨h.books, h.closed.imp_right fun hi => hi.imp_right fun hu => hu.mono hle⟩

theorem Books.passed (h : Books env limits start w) (passes : Nat) :
    Books env limits start { w with workspace := { w.workspace with mergePasses := passes } } :=
  ⟨h.later, h.accounts.same rfl rfl rfl rfl, h.live, h.sizes, h.distinct, h.named, h.files, h.fresh⟩

/-- How the body of a write that began in `base` may fail. -/
structure Fails (env : Environment) (limits : StreamingLimits) (start limit : Nat)
    (base : World τ) (e : PyError) (v : World τ) : Prop where
  books : Books env limits start v
  apart : Apart base v
  cause : RolledBack e ∨ Interrupted env limits start limit v

theorem enforceBytes_books {name stage : String} {allowed : Option Nat} {observed : Nat}
    (w : World τ) :
    wp (enforceBytes name allowed observed stage)
      (fun _ v => v = w ∧ ∀ bound, allowed = some bound → observed ≤ bound)
      (fun e v => v = w ∧ RolledBack e) w := by
  cases allowed with
  | none => exact ⟨rfl, fun _ h => by cases h⟩
  | some bound =>
    refine wp_raiseIf (fun _ => ⟨rfl, trivial⟩) (fun hle => ⟨rfl, fun _ h => ?_⟩)
    cases h
    omega

/-- The estimate of the free space is no part of the books. -/
theorem Books.estimated (h : Books env limits start w) (estimate : Nat) :
    Books env limits start
      { w with workspace := { w.workspace with availableEstimate := estimate } } := by
  exact ⟨h.later, h.accounts.same rfl rfl rfl rfl, h.live, h.sizes, h.distinct, h.named, h.files, h.fresh⟩

/-- A clock and an estimate are all that changes until the bytes are charged. -/
def Estimated (w v : World τ) : Prop :=
  ∃ calls estimate, v = { w with
    clock := w.clock + calls
    workspace := { w.workspace with availableEstimate := estimate } }

theorem Estimated.books (h : Books env limits start w) (he : Estimated w v) :
    Books env limits start v := by
  obtain ⟨calls, estimate, rfl⟩ := he
  have hl : Later w { w with clock := w.clock + calls } := ⟨calls, rfl⟩
  exact (h.ticked hl).estimated estimate

theorem Estimated.apart (he : Estimated w v) : Apart w v := by
  obtain ⟨calls, estimate, rfl⟩ := he
  exact ⟨rfl, rfl, fun _ _ => rfl, Nat.le_refl _⟩

theorem availableFor_books (amount : Nat) (stage : String) (w : World τ) :
    wp (availableFor env amount stage) (fun _ v => Estimated w v)
      (fun e v => Estimated w v ∧ RolledBack e) w := by
  have hsame : w = { w with
      workspace := { w.workspace with availableEstimate := w.workspace.availableEstimate } } := rfl
  simp only [availableFor, wp_bind, wp_get, wp_ite]
  split
  · simp only [wp_modify, wp_pure]
    refine wp_mono (diskUsage_later stage w) ?_ ?_
    · rintro free _ ⟨calls, rfl⟩
      exact ⟨calls, free, rfl⟩
    · rintro e _ ⟨⟨calls, rfl⟩, he⟩
      exact ⟨⟨calls, w.workspace.availableEstimate, rfl⟩, he⟩
  · exact ⟨0, w.workspace.availableEstimate, rfl⟩

/-- The workspace after some bytes have been charged. -/
def Grown (limits : StreamingLimits) (amount : Nat) (w v : World τ) : Prop :=
  ∃ calls estimate, v = { w with
      clock := w.clock + calls
      workspace := { w.workspace with
        liveBytes := w.workspace.liveBytes + amount
        totalWritten := w.workspace.totalWritten + amount
        peakLiveBytes := max w.workspace.peakLiveBytes (w.workspace.liveBytes + amount)
        availableEstimate := estimate
        liveHistory := (w.workspace.liveBytes + amount) :: w.workspace.liveHistory } } ∧
    (∀ allowed, limits.maxTemporaryBytes = some allowed →
      w.workspace.liveBytes + amount ≤ allowed) ∧
    ∀ allowed, limits.maxSpillBytes = some allowed → w.workspace.totalWritten + amount ≤ allowed

theorem grow_books (amount : Nat) (stage : String) (w : World τ) :
    wp (grow env limits amount stage) (fun _ v => Grown limits amount w v)
      (fun e v => Estimated w v ∧ RolledBack e) w := by
  have hsame : Estimated w w := ⟨0, w.workspace.availableEstimate, rfl⟩
  simp only [grow, wp_bind, wp_get]
  refine wp_mono (enforceBytes_books w) ?_ (fun e v h => ⟨h.1 ▸ hsame, h.2⟩)
  rintro - _ ⟨rfl, htemporary⟩
  refine wp_mono (enforceBytes_books _) ?_ (fun e v h => ⟨h.1 ▸ hsame, h.2⟩)
  rintro - _ ⟨rfl, hspill⟩
  refine wp_mono (availableFor_books amount stage _) ?_ (fun e v h => h)
  rintro free v hv
  refine wp_raiseIf (fun _ => ⟨hv, trivial⟩) (fun _ => ?_)
  obtain ⟨calls, estimate, rfl⟩ := hv
  exact ⟨calls, _, rfl, htemporary, hspill⟩

/-- The bytes are charged to the run that is being written. -/
theorem Grown.books {amount : Nat} (h : Books env limits start w) (hg : Grown limits amount w v)
    (hopen : w.partialRun ≠ none) :
    Books env limits start { v with
      partialRun := v.partialRun.map fun p => { p with accounted := p.accounted + amount } } := by
  obtain ⟨calls, estimate, rfl, htemporary, hspill⟩ := hg
  obtain ⟨p, hp⟩ := Option.ne_none_iff_exists'.mp hopen
  have hlive := h.live
  have hfiles := h.files
  have hfresh := h.fresh
  have hlater := h.later
  simp only [charged, writing, registered, hp, Option.bind_some] at hlive hfiles hfresh
  refine ⟨?_, h.accounts.charged rfl rfl rfl rfl htemporary hspill, ?_, h.sizes,
    h.distinct, h.named, ?_, ?_⟩
  · dsimp only
    omega
  · simp only [charged, hp, Option.map_some, Option.getD_some] at hlive ⊢
    omega
  · simpa only [writing, registered, hp, Option.map_some, Option.bind_some] using hfiles
  · simpa only [writing, registered, hp, Option.map_some, Option.bind_some] using hfresh

end Books

section Write
variable {τ : Type} [PyText τ] {env : Environment} {limits : StreamingLimits}
  {start limit : Nat} {base w v : World τ}

omit [PyText τ] in
/-- Reserve bytes and charge them to the run that is being written. -/
theorem charge_books (amount limit : Nat) (stage : String) (h : Books env limits start w)
    (hapart : Apart base w) {p : PartialRun} (hopen : w.partialRun = some p) :
    wp (do grow env limits amount stage; account amount)
      (fun _ v => Books env limits start v ∧ Apart base v ∧ v.files = w.files ∧
        v.nextPath = w.nextPath ∧ v.partialRun = some { p with accounted := p.accounted + amount })
      (Fails env limits start limit base) w := by
  simp only [wp_bind, account, wp_modify]
  refine wp_mono (grow_books amount stage w) ?_
    (fun e v he => ⟨he.1.books h, hapart.trans he.1.apart, .inl he.2⟩)
  intro _ v hv
  have hbooks := hv.books h (by rw [hopen]; exact Option.some_ne_none p)
  obtain ⟨calls, estimate, rfl, -⟩ := hv
  refine ⟨hbooks, ⟨hapart.runs, hapart.passes, hapart.files, hapart.nextPath⟩, rfl, rfl, ?_⟩
  dsimp only
  rw [hopen]
  rfl

omit [PyText τ] in
/-- Bytes are appended to the file that is being written. -/
theorem appendFile_books {path : Path} {bytes : Bytes} (h : Books env limits start w)
    (hapart : Apart base w) (hwriting : writing w = some path) :
    wp (appendFile env path bytes)
      (fun _ v => Books env limits start v ∧ Apart base v ∧ v.partialRun = w.partialRun ∧
        v.nextPath = w.nextPath ∧ (v.files path).map List.length =
          some (((w.files path).map List.length).getD 0 + bytes.length))
      (Fails env limits start limit base) w := by
  obtain ⟨hunregistered, hnamed⟩ := h.fresh path hwriting
  simp only [appendFile, wp_bind, wp_modify]
  refine wp_mono (io_later w) ?_
    (fun e v he => ⟨h.ticked he.1, hapart.trans he.1.apart, .inl he.2⟩)
  rintro - _ ⟨calls, rfl⟩
  have hlater : start ≤ w.clock + calls := le_trans h.later (Nat.le_add_right _ _)
  refine ⟨⟨hlater, h.accounts, h.live, fun entry he => ?_, h.distinct, h.named,
    fun hunlink q hq => ?_, h.fresh⟩, ⟨hapart.runs, hapart.passes, fun q hq => ?_, hapart.nextPath⟩, rfl,
    rfl, ?_⟩
  · have hne : entry.1 ≠ path := fun heq => hunregistered (heq ▸ List.mem_map_of_mem he)
    dsimp only
    rw [Function.update_of_ne hne]
    exact h.sizes entry he
  · by_cases hq' : q = path
    · exact .inr (hq' ▸ hwriting)
    · dsimp only at hq
      rw [Function.update_of_ne hq'] at hq
      exact h.files hunlink q hq
  · have hsame : registered w = registered base := congrArg (List.map Prod.fst) hapart.runs
    have hne : q ≠ path := fun heq => hunregistered (heq ▸ hsame ▸ hq)
    dsimp only
    rw [Function.update_of_ne hne]
    exact hapart.files q hq
  · dsimp only
    rw [Function.update_self]
    cases w.files path <;> simp

/-- The state of the write loop after `n` bytes of records. -/
structure InWrite (env : Environment) (limits : StreamingLimits) (start : Nat) (base : World τ)
    (path : Path) (n : Nat) (p : RunProgress) (w : World τ) : Prop where
  books : Books env limits start w
  apart : Apart base w
  partialRun : w.partialRun = some ⟨some path, runHeaderSize + n⟩
  content : (w.files path).map List.length = some (runHeaderSize + n)
  payload : p.payloadBytes = n
  count : p.count ≤ n
  path : path = base.nextPath
  nextPath : w.nextPath = base.nextPath + 1

omit [PyText τ] in
theorem InWrite.later {path : Path} {n : Nat} {p : RunProgress}
    (h : InWrite env limits start base path n p w) (hl : Later w v) :
    InWrite env limits start base path n p v := by
  have hbooks := h.books.ticked hl
  have hapart := h.apart.trans hl.apart
  obtain ⟨calls, rfl⟩ := hl
  exact ⟨hbooks, hapart, h.partialRun, h.content, h.payload, h.count, h.path, h.nextPath⟩

omit [PyText τ] in
theorem InWrite.live {path : Path} {n : Nat} {p : RunProgress}
    (h : InWrite env limits start base path n p w) : n ≤ w.workspace.liveBytes := by
  rw [h.books.live]
  simp only [charged, h.partialRun, Option.map_some, Option.getD_some]
  omega

omit [PyText τ] in
theorem InWrite.interrupted {path : Path} {n : Nat} {p : RunProgress}
    (h : InWrite env limits start base path n p w) (hl : Later w v)
    (hfired : CancelledIn env w.clock v) (e : PyError) : Fails env limits start limit base e v :=
  ⟨h.books.ticked hl, h.apart.trans hl.apart, .inr (.inl (hfired.sooner h.books.later))⟩

theorem writeEdge_books {path : Path} {n : Nat} {p : RunProgress} {edge : Edge τ}
    (h : InWrite env limits start base path n p w) (henc : edge.encodable = true) :
    wp (writeEdge env limits path p edge)
      (InWrite env limits start base path (n + (record edge).length))
      (Fails env limits start limit base) w := by
  simp only [writeEdge]
  rw [wp_bind]
  refine wp_mono (pollCancel_later limits p.count w) ?_ ?_
  · intro _ v hv
    have hin := h.later hv
    rcases encodeEdge_cases henc with hok | hfield
    · have hpos := record_length_pos hok
      have hbound : runHeaderSize + n + (record edge).length =
          runHeaderSize + (n + (record edge).length) := Nat.add_assoc _ _ _
      have hcharge := charge_books (record edge).length limit "run-write" hin.books hin.apart
        hin.partialRun
      simp only [hok, liftExcept, wp_bind, wp_pure] at hcharge ⊢
      refine wp_mono hcharge ?_ (fun _ _ h => h)
      intro _ u hu
      refine wp_mono hu ?_ (fun _ _ h => h)
      rintro - x ⟨hbooks, hapart, hfiles, hnext, hpartial⟩
      have hwriting : writing x = some path := by
        rw [writing, hpartial]
        rfl
      refine wp_mono (appendFile_books hbooks hapart hwriting) ?_
        (fun _ _ h => h)
      rintro - y ⟨hbooks', hapart', hpartial', hnext', hcontent⟩
      refine ⟨hbooks', hapart', ?_, ?_, ?_, ?_, hin.path, hnext'.trans (hnext.trans hin.nextPath)⟩
      · rw [hpartial', hpartial]
        simp only [hbound]
      · rw [hcontent, hfiles, hin.content]
        simp only [Option.getD_some, hbound]
      · dsimp only
        rw [hin.payload]
      · have := hin.count
        dsimp only
        omega
    · simp only [hfield, liftExcept, wp_bind, wp_throw]
      exact ⟨hin.books, hin.apart, .inl trivial⟩
  · rintro e v ⟨hv, rfl, hfired⟩
    exact h.interrupted hv hfired _

/-- A finished run is registered with the size of its file. -/
structure Registered (env : Environment) (limits : StreamingLimits) (start limit : Nat)
    (base : World τ) (run : Run) (v : World τ) : Prop where
  books : Books env limits start v
  closed : v.partialRun = none
  runs : v.workspace.runs = base.workspace.runs ++ [(run.path, run.sizeBytes)]
  passes : v.workspace.mergePasses = base.workspace.mergePasses
  files : ∀ path ∈ registered base, v.files path = base.files path
  path : run.path = base.nextPath
  nextPath : v.nextPath = base.nextPath + 1
  payload : run.payloadBytes ≤ limit

omit [PyText τ] in
/-- A new file is being written; no byte is charged for it. -/
theorem Books.created (h : Books env limits start w) {accounted : Nat}
    (hopen : w.partialRun = some ⟨none, accounted⟩) :
    Books env limits start { w with
      nextPath := w.nextPath + 1
      files := Function.update w.files w.nextPath (some [])
      partialRun := some ⟨some w.nextPath, accounted⟩ } := by
  have hold : ∀ path ∈ registered w, path ≠ w.nextPath := fun path hpath =>
    ne_of_lt (h.named path hpath)
  have hlive := h.live
  simp only [charged, hopen] at hlive
  refine ⟨h.later, h.accounts, hlive, fun entry he => ?_, h.distinct, fun path hpath => ?_,
    fun hunlink path hpath => ?_, fun path hpath => ?_⟩
  · dsimp only
    rw [Function.update_of_ne (hold _ (List.mem_map_of_mem he))]
    exact h.sizes entry he
  · exact lt_trans (h.named path hpath) (Nat.lt_succ_self _)
  · by_cases hnew : path = w.nextPath
    · exact .inr (hnew ▸ rfl)
    · dsimp only at hpath
      rw [Function.update_of_ne hnew] at hpath
      rcases h.files hunlink path hpath with hin | hwriting
      · exact .inl hin
      · simp [writing, hopen] at hwriting
  · cases hpath
    exact ⟨fun hin => hold _ hin rfl, Nat.lt_succ_self _⟩

omit [PyText τ] in
/-- The start of a file is overwritten by as many bytes. -/
theorem overwriteStart_books {path : Path} {bytes : Bytes} {size : Nat} (h : Books env limits start w)
    (hapart : Apart base w) (hwriting : writing w = some path)
    (hcontent : (w.files path).map List.length = some size) (hfits : bytes.length ≤ size) :
    wp (overwriteStart env path bytes)
      (fun _ v => Books env limits start v ∧ Apart base v ∧ v.partialRun = w.partialRun ∧
        v.nextPath = w.nextPath ∧ (v.files path).map List.length = some size)
      (Fails env limits start limit base) w := by
  obtain ⟨hunregistered, hnamed⟩ := h.fresh path hwriting
  obtain ⟨content, hfile, hsize⟩ := Option.map_eq_some_iff.mp hcontent
  simp only [overwriteStart, wp_bind, wp_modify]
  refine wp_mono (io_later w) ?_
    (fun e v he => ⟨h.ticked he.1, hapart.trans he.1.apart, .inl he.2⟩)
  rintro - _ ⟨calls, rfl⟩
  have hlater : start ≤ w.clock + calls := le_trans h.later (Nat.le_add_right _ _)
  refine ⟨⟨hlater, h.accounts, h.live, fun entry he => ?_, h.distinct, h.named,
    fun hunlink q hq => ?_, h.fresh⟩, ⟨hapart.runs, hapart.passes, fun q hq => ?_, hapart.nextPath⟩, rfl,
    rfl, ?_⟩
  · have hne : entry.1 ≠ path := fun heq => hunregistered (heq ▸ List.mem_map_of_mem he)
    dsimp only
    rw [Function.update_of_ne hne]
    exact h.sizes entry he
  · by_cases hq' : q = path
    · exact .inr (hq' ▸ hwriting)
    · dsimp only at hq
      rw [Function.update_of_ne hq'] at hq
      exact h.files hunlink q hq
  · have hsame : registered w = registered base := congrArg (List.map Prod.fst) hapart.runs
    have hne : q ≠ path := fun heq => hunregistered (heq ▸ hsame ▸ hq)
    dsimp only
    rw [Function.update_of_ne hne]
    exact hapart.files q hq
  · dsimp only
    rw [Function.update_self, hfile]
    simp only [Option.map_some, Option.getD_some, List.length_append, List.length_drop,
      Option.some.injEq]
    omega

omit [PyText τ] in
/-- The file that was written is registered with what was charged for it. -/
theorem Books.registered (h : Books env limits start w) {path : Path} {size : Nat}
    (hopen : w.partialRun = some ⟨some path, size⟩)
    (hcontent : (w.files path).map List.length = some size) {created : Nat} :
    Books env limits start { w with
      partialRun := none
      workspace := { w.workspace with
        runs := w.workspace.runs ++ [(path, size)]
        runsCreated := created } } := by
  have hwriting : writing w = some path := by
    rw [writing, hopen]
    rfl
  obtain ⟨hunregistered, hnamed⟩ := h.fresh path hwriting
  have hlive := h.live
  simp only [charged, hopen, Option.map_some, Option.getD_some] at hlive
  refine ⟨h.later, h.accounts.same rfl rfl rfl rfl, ?_, fun entry he => ?_, ?_, fun q hq => ?_,
    fun hunlink q hq => ?_, fun q hq => by cases hq⟩
  · simp only [charged, Option.map_none, Option.getD_none, List.map_append, List.sum_append,
      List.map_singleton, List.sum_singleton]
    omega
  · rcases List.mem_append.mp he with he | he
    · exact h.sizes entry he
    · rw [List.mem_singleton.mp he]
      exact hcontent
  · simp only [Streaming.registered, List.map_append, List.map_singleton]
    rw [← List.concat_eq_append]
    exact h.distinct.concat hunregistered
  · simp only [Streaming.registered, List.map_append, List.map_singleton, List.mem_append,
      List.mem_singleton] at hq
    rcases hq with hq | rfl
    · exact h.named q hq
    · exact hnamed
  · simp only [Streaming.registered, List.map_append, List.map_singleton, List.mem_append,
      List.mem_singleton]
    rcases h.files hunlink q hq with hin | hw
    · exact .inl (.inl hin)
    · rw [hwriting] at hw
      cases hw
      exact .inl (.inr rfl)

omit [PyText τ] in
theorem packHeader_books {count payloadBytes : Nat} (haccounts : Accounts limits w.workspace)
    (hlive : payloadBytes ≤ w.workspace.liveBytes) (hcount : count ≤ payloadBytes)
    (hpayload : payloadBytes ≤ limit) (hashed : Bytes) :
    wp (liftExcept (packHeader count payloadBytes (env.sha256 hashed)))
      (fun header v => v = w ∧ header.length = runHeaderSize)
      (fun _ v => v = w ∧ Unpackable limits limit) w := by
  have hspilled := haccounts.spilled
  unfold packHeader
  split
  · exact ⟨rfl, runHeader_length _ _ _ (env.sha256_length _)⟩
  · refine ⟨rfl, by omega, fun allowed ha => ?_, fun allowed ha => ?_⟩
    · have := haccounts.temporary allowed ha
      omega
    · have := haccounts.spill allowed ha
      omega

theorem writeRunBody_books {edges : Producer PyError (World τ) (Edge τ)}
    (hfeeds : Feeds env limit edges) (h : Books env limits start w)
    (hopen : w.partialRun = some ⟨none, 0⟩) :
    wp (writeRunBody env limits edges) (Registered env limits start limit w)
      (Fails env limits start limit w) w := by
  simp only [writeRunBody]
  rw [wp_bind]
  refine wp_mono (io_later w) ?_ (fun e v he => ⟨h.ticked he.1, he.1.apart, .inl he.2⟩)
  rintro - _ ⟨calls, rfl⟩
  have hlater : Later w { w with clock := w.clock + calls } := ⟨calls, rfl⟩
  have hcreated := (h.ticked hlater).created hopen
  rw [wp_bind, wp_modifyGet]
  dsimp only at hcreated ⊢
  generalize hv : ({ w with
    clock := w.clock + calls
    nextPath := w.nextPath + 1
    files := Function.update w.files w.nextPath (some [])
    partialRun := some ⟨some w.nextPath, 0⟩ } : World τ) = v at hcreated ⊢
  have hapart : Apart w v := by
    subst hv
    exact ⟨rfl, rfl, fun q hq => Function.update_of_ne (ne_of_lt (h.named q hq)) _ _,
      Nat.le_succ _⟩
  have hpartial : v.partialRun = some ⟨some w.nextPath, 0⟩ := hv ▸ rfl
  have hempty : (v.files w.nextPath).map List.length = some 0 := by
    subst hv
    simp
  have hnext : v.nextPath = w.nextPath + 1 := hv ▸ rfl
  rw [wp_bind]
  refine wp_mono (io_later v) ?_
    (fun e u he => ⟨hcreated.ticked he.1, hapart.trans he.1.apart, .inl he.2⟩)
  intro _ u hu
  have hbooks := hcreated.ticked hu
  have hapart := hapart.trans hu.apart
  obtain ⟨calls', rfl⟩ := hu
  have hcharge := charge_books runHeaderSize limit "run-header" hbooks hapart hpartial
  simp only [wp_bind] at hcharge ⊢
  refine wp_mono hcharge ?_ (fun _ _ h => h)
  intro _ x hx
  refine wp_mono hx ?_ (fun _ _ h => h)
  rintro - y ⟨hbooks, hapart, hfiles, hnext', hpartial'⟩
  have hwriting : writing y = some w.nextPath := by
    rw [writing, hpartial']
    rfl
  refine wp_mono (appendFile_books hbooks hapart hwriting) ?_ (fun _ _ h => h)
  rintro - z ⟨hbooks, hapart, hpartial'', hnext'', hcontent⟩
  have hstart : InWrite env limits start w w.nextPath 0 ⟨0, 0, []⟩ z := by
    refine ⟨hbooks, hapart, ?_, ?_, rfl, Nat.le_refl _, rfl, ?_⟩
    · rw [hpartial'', hpartial', Nat.zero_add, Nat.add_zero]
    · rw [hcontent, hfiles, hempty]
      simp
    · rw [hnext'', hnext', hnext]
  have hloop := hfeeds (InWrite env limits start w w.nextPath) (Fails env limits start limit w)
    (writeEdge env limits w.nextPath) (fun n p s t hl hi => hi.later hl)
    (fun n p s e he hi => ⟨hi.books, hi.apart, .inl he⟩)
    (fun n p s t hl hfired hi => hi.interrupted hl hfired _)
    (fun n p s edge henc _ hi => writeEdge_books hi henc) ⟨0, 0, []⟩ z hstart
  refine wp_mono hloop ?_ (fun _ _ h => h)
  rintro p a ⟨n, hn, hin⟩
  refine wp_mono (checkCancel_later a) ?_ ?_
  · intro _ b hb
    have hin := hin.later hb
    refine wp_mono (packHeader_books hin.books.accounts (hin.payload ▸ hin.live)
      (hin.payload ▸ hin.count) (hin.payload ▸ hn) p.hashed) ?_
      (fun e c hc => ⟨hc.1 ▸ hin.books, hc.1 ▸ hin.apart, .inr (.inr hc.2)⟩)
    rintro header same ⟨hsame, hlength⟩
    rw [hsame]
    have hwriting : writing b = some w.nextPath := by
      rw [writing, hin.partialRun]
      rfl
    refine wp_mono (overwriteStart_books hin.books hin.apart hwriting hin.content (by omega)) ?_ (fun _ _ h => h)
    rintro - c ⟨hbooks, hapart, hpartial, hnext, hcontent⟩
    refine wp_mono (io_later c) ?_
      (fun e d he => ⟨hbooks.ticked he.1, hapart.trans he.1.apart, .inl he.2⟩)
    intro _ d hd
    have hbooks := hbooks.ticked hd
    have hapart := hapart.trans hd.apart
    obtain ⟨calls'', rfl⟩ := hd
    have hopen : c.partialRun = some ⟨some w.nextPath, runHeaderSize + n⟩ :=
      hpartial.trans hin.partialRun
    rw [wp_modifyGet]
    simp only [hopen, Option.map_some, Option.getD_some]
    refine ⟨hbooks.registered hopen hcontent, rfl, ?_, hapart.passes, hapart.files, rfl,
      hnext.trans hin.nextPath, ?_⟩
    · dsimp only
      rw [← hapart.runs]
    · exact hin.payload ▸ hn
  · rintro e b ⟨hb, rfl, hfired⟩
    exact hin.interrupted hb hfired _

end Write

section Undo
variable {τ : Type} {env : Environment} {limits : StreamingLimits} {start limit : Nat}
  {base w v : World τ}

/-- A file is removed, unless `unlink` fails. -/
theorem unlink_removes (path : Path) {E : PyError → World τ → Prop} (w : World τ) :
    wp (unlink env path) (fun removed v =>
      (removed = true ∧ v = { w with
        clock := w.clock + 1
        files := Function.update w.files path none }) ∨
      (removed = false ∧ v = { w with clock := w.clock + 1 } ∧
        ∃ now, env.unlinkFault now ≠ none)) E w := by
  simp only [unlink, tick, wp_bind, wp_modifyGet]
  cases hf : env.unlinkFault w.clock with
  | none => exact .inl ⟨rfl, rfl⟩
  | some error => exact .inr ⟨rfl, rfl, w.clock, by rw [hf]; exact Option.some_ne_none error⟩

/-- The books without the run that was being written, whether its file is removed or not. -/
theorem Books.forgotten (h : Books env limits start w) {p : PartialRun} (calls : Nat)
    (hp : w.partialRun = some p) {files : Path → Option Bytes}
    (hkept : ∀ path ∈ Streaming.registered w, files path = w.files path)
    (hgone : (∀ now, env.unlinkFault now = none) → ∀ path, (files path).isSome →
      (w.files path).isSome ∧ p.path ≠ some path) :
    Books env limits start { w with
      clock := w.clock + calls
      files := files
      partialRun := none
      workspace := { w.workspace with
        liveBytes := w.workspace.liveBytes - p.accounted
        availableEstimate := w.workspace.availableEstimate + p.accounted
        liveHistory := (w.workspace.liveBytes - p.accounted) :: w.workspace.liveHistory } } := by
  have hlive := h.live
  simp only [charged, hp, Option.map_some, Option.getD_some] at hlive
  refine ⟨le_trans h.later (Nat.le_add_right _ _),
    h.accounts.released (Nat.sub_le _ _) rfl rfl rfl, ?_, fun entry he => ?_, h.distinct, h.named,
    fun hunlink path hpath => ?_, fun path hpath => by cases hpath⟩
  · simp only [charged, Option.map_none, Option.getD_none]
    omega
  · dsimp only
    rw [hkept _ (List.mem_map_of_mem he)]
    exact h.sizes entry he
  · obtain ⟨hold, hother⟩ := hgone hunlink path hpath
    rcases h.files hunlink path hold with hin | hw
    · exact .inl hin
    · simp only [writing, hp, Option.bind_some] at hw
      exact absurd hw hother

theorem forgetPartial_books {E : PyError → World τ → Prop} (h : Books env limits start w)
    (hapart : Apart base w) :
    wp (forgetPartial env)
      (fun _ v => Books env limits start v ∧ Apart base v ∧ v.partialRun = none) E w := by
  have hsame : registered w = registered base := congrArg (List.map Prod.fst) hapart.runs
  simp only [forgetPartial, wp_bind, wp_get]
  cases hp : w.partialRun with
  | none => exact ⟨h, hapart, hp⟩
  | some p =>
    obtain ⟨path, accounted⟩ := p
    cases path with
    | none =>
      exact ⟨h.forgotten 0 hp (fun _ _ => rfl) fun _ _ hfile => ⟨hfile, by simp⟩,
        ⟨hapart.runs, hapart.passes, hapart.files, hapart.nextPath⟩, rfl⟩
    | some path =>
      have hwriting : writing w = some path := by
        rw [writing, hp]
        rfl
      obtain ⟨hunregistered, -⟩ := h.fresh path hwriting
      have hkept : ∀ q ∈ registered w, Function.update w.files path none q = w.files q :=
        fun q hq => Function.update_of_ne (by rintro rfl; exact hunregistered hq) _ _
      simp only [wp_bind, wp_modify, wp_pure]
      refine wp_mono (unlink_removes path _) ?_ (fun _ _ h => h)
      rintro removed _ (⟨-, rfl⟩ | ⟨-, rfl, now, hfault⟩)
      · refine ⟨h.forgotten 1 hp hkept fun _ q hq => ?_,
          ⟨hapart.runs, hapart.passes,
            fun q hq => (hkept q (hsame ▸ hq)).trans (hapart.files q hq), hapart.nextPath⟩, rfl⟩
        by_cases hq' : q = path
        · subst hq'
          simp at hq
        · rw [Function.update_of_ne hq'] at hq
          exact ⟨hq, fun heq => hq' (Option.some.inj heq).symm⟩
      · exact ⟨h.forgotten 1 hp (fun _ _ => rfl) fun hunlink => absurd (hunlink now) hfault,
          ⟨hapart.runs, hapart.passes, hapart.files, hapart.nextPath⟩, rfl⟩

/-- A write that fails forgets its run, unless it was interrupted. -/
theorem writeRunFailed_books {Q : Run → World τ → Prop} {e : PyError}
    (h : Fails env limits start limit base e w) :
    wp (writeRunFailed env e) Q
      (fun _ v => Closed env limits start limit v ∧ Apart base v) w := by
  have hforget : ∀ e' : PyError, wp (do forgetPartial env; throw e') Q
      (fun _ v => Closed env limits start limit v ∧ Apart base v) w := by
    intro e'
    simp only [wp_bind, wp_throw]
    exact wp_mono (forgetPartial_books h.books h.apart)
      (fun _ v hv => ⟨⟨hv.1, .inl hv.2.2⟩, hv.2.1⟩) (fun _ _ h => h)
  have hpass : ¬RolledBack e → Closed env limits start limit w ∧ Apart base w := fun hnot =>
    ⟨⟨h.books, .inr (h.cause.resolve_left hnot)⟩, h.apart⟩
  cases e with
  | resource message details => exact hforget _
  | io fault =>
    cases fault with
    | os error => exact hforget _
    | memory => exact hforget _
    | overflow => exact hforget _
  | _ => exact hpass id

theorem writeRun_books [PyText τ] {edges : Producer PyError (World τ) (Edge τ)}
    (hfeeds : Feeds env limit edges) (h : Books env limits start w) (hnone : w.partialRun = none) :
    wp (writeRun env limits edges) (Registered env limits start limit w)
      (fun _ v => Closed env limits start limit v ∧ Apart w v) w := by
  have hopened : Books env limits start { w with partialRun := some ⟨none, 0⟩ } := by
    have hlive := h.live
    have hfiles := h.files
    simp only [charged, writing, hnone] at hlive hfiles
    exact ⟨h.later, h.accounts, hlive, h.sizes, h.distinct, h.named, hfiles, fun q hq => by cases hq⟩
  simp only [writeRun, wp_bind, wp_modify, wp_tryCatch]
  refine wp_mono (writeRunBody_books hfeeds hopened rfl) ?_ ?_
  · rintro run v ⟨hbooks, hclosed, hruns, hpasses, hfiles, hpath, hnext, hpayload⟩
    exact ⟨hbooks, hclosed, hruns, hpasses, hfiles, hpath, hnext, hpayload⟩
  · intro e v hv
    refine wp_mono (writeRunFailed_books hv) (fun _ _ h => h) ?_
    rintro - u ⟨hclosed, hapart⟩
    exact ⟨hclosed, hapart.runs, hapart.passes, hapart.files, hapart.nextPath⟩

end Undo

end Projector.Streaming

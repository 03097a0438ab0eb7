import GrpcQuic.Server.HandleRequest

/-! # The task of one connection

`handle_connection` with the request tasks it has spawned, and the transport
under them. Dropping the h3 connection closes the QUIC connection at once, and
what the transport has not delivered by then is gone.
-/
namespace GrpcQuic.Server

/-- The await points of `handle_connection`. In `resolving` it awaits the head of
one request inside the arm of the select, so it waits for nothing else there. -/
inductive ConnPhase where
  | building
  | selecting
  | resolving
  | shuttingDown
  | joining
  | ended
  deriving DecidableEq, Repr

/-- `cancel` is the broadcast waiting in the receiver of the task, `joinSet` its
`request_join_set`, and `up` whether the transport still delivers. -/
structure Conn where
  phase : ConnPhase
  cancel : Bool
  tasks : List RequestTask
  joinSet : List ℕ
  up : Bool
  dropped : Bool

def Conn.new : Conn := ⟨.building,false,[],[],true,false⟩

inductive ConnLabel where
  | built (ok : Bool)
  | cancelled
  | accepted
  | acceptEnded
  | resolved (path : Option String)
  | shutDown
  | request (r : ℕ) (l : RequestLabel)
  | join (r : ℕ)
  | drop
  | deliver (r : ℕ)
  | lost

def Conn.setTask (conn : Conn) (r : ℕ) (task : RequestTask) : Conn :=
  { conn with tasks := conn.tasks.set r task }

def Conn.spawn (conn : Conn) (path : String) : Conn :=
  { conn with
    phase := .selecting
    tasks := conn.tasks ++ [.new path]
    joinSet := conn.joinSet ++ [conn.tasks.length] }

def Conn.dropH3 (conn : Conn) : Conn :=
  { conn with
    phase := .ended
    tasks := conn.tasks.map RequestTask.discard
    up := false
    dropped := true }

/-- Dropping the task drops its `request_join_set`, which aborts the requests. -/
def Conn.abort (conn : Conn) : Conn :=
  { conn with tasks := conn.tasks.map RequestTask.drop, joinSet := [] }.dropH3

def Conn.step (permits : ℕ) (conn : Conn) : ConnLabel → Option (ℕ × Conn)
  | .built ok =>
    match conn.phase with
    | .building => some (permits,{ conn with phase := if ok then .selecting else .ended })
    | _ => none
  | .cancelled =>
    match conn.phase with
    | .selecting =>
      if conn.cancel then some (permits,{ conn with phase := .shuttingDown, cancel := false }) else none
    | _ => none
  | .accepted =>
    match conn.phase with
    | .selecting => some (permits,{ conn with phase := .resolving })
    | _ => none
  | .acceptEnded =>
    match conn.phase with
    | .selecting => some (permits,{ conn with phase := .joining })
    | _ => none
  | .resolved path =>
    match conn.phase, path, permits with
    | .resolving, some path, n + 1 => some (n,conn.spawn path)
    | .resolving, _, _ => some (permits,{ conn with phase := .selecting })
    | _, _, _ => none
  | .shutDown =>
    match conn.phase with
    | .shuttingDown => some (permits,{ conn with phase := .joining })
    | _ => none
  | .request r l =>
    (conn.tasks[r]?.bind fun task => task.step l).map fun next =>
      (if next.ended then permits + 1 else permits,conn.setTask r next)
  | .join r =>
    match conn.phase with
    | .joining =>
      if conn.joinSet.contains r && conn.tasks[r]?.any RequestTask.ended then
        some (permits,{ conn with joinSet := conn.joinSet.erase r })
      else none
    | _ => none
  | .drop =>
    match conn.phase, conn.joinSet with
    | .joining, [] => some (permits,conn.dropH3)
    | _, _ => none
  | .deliver r =>
    if conn.up then
      (conn.tasks[r]?.bind RequestTask.deliver).map fun next => (permits,conn.setTask r next)
    else none
  | .lost => if conn.up then some (permits,{ conn with up := false }) else none

structure ConnInv (conn : Conn) : Prop where
  joined : ∀ r task, conn.tasks[r]? = some task → task.ended = false → r ∈ conn.joinSet
  known : ∀ r ∈ conn.joinSet, r < conn.tasks.length
  conserved : conn.dropped = false → ∀ task ∈ conn.tasks, task.Conserved
  gone : conn.dropped = true → conn.phase = .ended ∧
    ∀ task ∈ conn.tasks, task.queued = [] ∧ task.ended = true

theorem connInv_new : ConnInv .new :=
  ⟨fun _ _ h => (nomatch h),fun _ h => (List.not_mem_nil h).elim,
    fun _ _ h => (List.not_mem_nil h).elim,nofun⟩

variable {permits permits' : ℕ} {conn conn' : Conn} {l : ConnLabel}

/-- What a step does to the requests: nothing, one step of one of them, a new
one, or the end of all. -/
theorem Conn.step_cases (h : conn.step permits l = some (permits',conn')) :
    (l ≠ .drop ∧ conn'.tasks = conn.tasks ∧ conn'.dropped = conn.dropped ∧ conn.phase ≠ .ended ∧
      (conn.phase = .joining → conn'.phase = .joining) ∧
        (conn'.joinSet = conn.joinSet ∨ ∃ r task, l = .join r ∧ conn.tasks[r]? = some task ∧
          task.ended = true ∧ conn'.joinSet = conn.joinSet.erase r)) ∨
    (l = .lost ∧ conn' = { conn with up := false }) ∨
    (∃ path, l = .resolved (some path) ∧ conn' = conn.spawn path ∧ conn.phase = .resolving) ∨
    (∃ r task next, (∃ m, l = .request r m ∧ task.step m = some next) ∧ conn.tasks[r]? = some task ∧
      conn' = conn.setTask r next) ∨
    (∃ r task next, l = .deliver r ∧ task.deliver = some next ∧ conn.tasks[r]? = some task ∧
      conn' = conn.setTask r next) ∨
    (l = .drop ∧ conn.phase = .joining ∧ conn.joinSet = [] ∧ conn' = conn.dropH3) := by
  cases l with
  | built ok =>
    cases hp : conn.phase <;> simp only [Conn.step,hp,reduceCtorEq] at h
    cases h
    exact .inl ⟨nofun,rfl,rfl,nofun,nofun,.inl rfl⟩
  | cancelled =>
    cases hp : conn.phase <;> simp only [Conn.step,hp,reduceCtorEq] at h
    split at h
    · cases h
      exact .inl ⟨nofun,rfl,rfl,nofun,nofun,.inl rfl⟩
    · cases h
  | accepted =>
    cases hp : conn.phase <;> simp only [Conn.step,hp,reduceCtorEq] at h
    cases h
    exact .inl ⟨nofun,rfl,rfl,nofun,nofun,.inl rfl⟩
  | acceptEnded =>
    cases hp : conn.phase <;> simp only [Conn.step,hp,reduceCtorEq] at h
    cases h
    exact .inl ⟨nofun,rfl,rfl,nofun,nofun,.inl rfl⟩
  | resolved path =>
    simp only [Conn.step] at h
    split at h
    · rename_i path n hp
      cases h
      exact .inr (.inr (.inl ⟨path,rfl,rfl,hp⟩))
    · rename_i hp _
      cases h
      exact .inl ⟨nofun,rfl,rfl,by rw [hp]; exact nofun,by rw [hp]; exact nofun,.inl rfl⟩
    · cases h
  | shutDown =>
    cases hp : conn.phase <;> simp only [Conn.step,hp,reduceCtorEq] at h
    cases h
    exact .inl ⟨nofun,rfl,rfl,nofun,nofun,.inl rfl⟩
  | request r m =>
    obtain ⟨next,hnext,hc⟩ := Option.map_eq_some_iff.mp h
    obtain ⟨task,ht,hm⟩ := Option.bind_eq_some_iff.mp hnext
    cases hc
    exact .inr (.inr (.inr (.inl ⟨r,task,next,⟨m,rfl,hm⟩,ht,rfl⟩)))
  | join r =>
    cases hp : conn.phase <;> simp only [Conn.step,hp,reduceCtorEq] at h
    split at h
    · rename_i hj
      obtain ⟨task,ht,he⟩ := (Option.any_eq_true ..).mp (Bool.and_eq_true_iff.mp hj).2
      cases h
      exact .inl ⟨nofun,rfl,rfl,nofun,fun _ => rfl,.inr ⟨r,task,rfl,ht,he,rfl⟩⟩
    · cases h
  | drop =>
    simp only [Conn.step] at h
    split at h
    · rename_i hp hj
      cases h
      exact .inr (.inr (.inr (.inr (.inr ⟨rfl,hp,hj,rfl⟩))))
    · cases h
  | deliver r =>
    simp only [Conn.step] at h
    split at h
    · obtain ⟨next,hnext,hc⟩ := Option.map_eq_some_iff.mp h
      obtain ⟨task,ht,hm⟩ := Option.bind_eq_some_iff.mp hnext
      cases hc
      exact .inr (.inr (.inr (.inr (.inl ⟨r,task,next,rfl,hm,ht,rfl⟩))))
    · cases h
  | lost =>
    simp only [Conn.step] at h
    split at h
    · cases h
      exact .inr (.inl ⟨rfl,rfl⟩)
    · cases h

theorem Conn.step_length (h : conn.step permits l = some (permits',conn')) :
    conn'.tasks.length = conn.tasks.length ∨
      ∃ path, l = .resolved (some path) ∧ conn' = conn.spawn path ∧ conn.phase = .resolving := by
  rcases Conn.step_cases h with ⟨-,ht,-⟩ | ⟨-,rfl⟩ | hspawn | ⟨r,task,next,-,-,rfl⟩ |
    ⟨r,task,next,-,-,-,rfl⟩ | ⟨-,-,-,rfl⟩
  · exact .inl (congrArg List.length ht)
  · exact .inl rfl
  · exact .inr hspawn
  · exact .inl List.length_set
  · exact .inl List.length_set
  · exact .inl (List.length_map _)

theorem ConnInv.setTask (h : ConnInv conn) {r : ℕ} {task next : RequestTask}
    (ht : conn.tasks[r]? = some task) (hd : conn.dropped = false)
    (he : next.ended = false → task.ended = false) (hc : task.Conserved → next.Conserved) :
    ConnInv (conn.setTask r next) := by
  refine ⟨fun r' task' ht' he' => ?_,fun r' hr' => ?_,fun _ task' ht' => ?_,?_⟩
  · rw [Conn.setTask,List.getElem?_set] at ht'
    split at ht'
    · rename_i hr
      split at ht'
      · cases ht'
        exact h.joined r' task (hr ▸ ht) (he he')
      · cases ht'
    · exact h.joined r' task' ht' he'
  · rw [Conn.setTask,List.length_set]
    exact h.known r' hr'
  · rcases List.mem_or_eq_of_mem_set ht' with hm | rfl
    · exact h.conserved hd task' hm
    · exact hc (h.conserved hd task (List.mem_of_getElem? ht))
  · exact fun hd' => (Bool.false_ne_true (hd.symm.trans hd')).elim

/-- A connection that has been dropped changes no more. -/
theorem ConnInv.alive (h : ConnInv conn) {r : ℕ} {task next : RequestTask} (ht : conn.tasks[r]? = some task)
    (hst : (∃ m, task.step m = some next) ∨ task.deliver = some next) : conn.dropped = false := by
  refine Bool.eq_false_iff.mpr fun hd => ?_
  obtain ⟨hq,he⟩ := (h.gone hd).2 task (List.mem_of_getElem? ht)
  rcases hst with ⟨m,hm⟩ | hdel
  · exact Bool.false_ne_true ((not_ended_of_step hm).symm.trans he)
  · unfold RequestTask.deliver at hdel
    rw [hq] at hdel
    cases hdel

theorem deliver_ended {task next : RequestTask} (h : task.deliver = some next) :
    next.ended = task.ended := by
  unfold RequestTask.deliver at h
  split at h
  · cases h
    rfl
  · cases h

theorem ConnInv.spawn (h : ConnInv conn) (hp : conn.phase = .resolving) (path : String) :
    ConnInv (conn.spawn path) := by
  have hd : conn.dropped = false :=
    Bool.eq_false_iff.mpr fun hd => nomatch hp.symm.trans (h.gone hd).1
  refine ⟨fun r task ht he => ?_,fun r hr => ?_,fun _ task ht => ?_,?_⟩
  · rw [Conn.spawn,List.getElem?_append] at ht
    split at ht
    · exact List.mem_append_left _ (h.joined r task ht he)
    · rename_i hr
      have hlt : r - conn.tasks.length < 1 := (List.getElem?_eq_some_iff.mp ht).1
      have hr' : r = conn.tasks.length := by omega
      exact List.mem_append_right _ (hr' ▸ List.mem_singleton_self r)
  · rw [Conn.spawn,List.length_append,List.length_singleton]
    rcases List.mem_append.mp hr with hr | hr
    · have := h.known r hr
      omega
    · have := List.mem_singleton.mp hr
      omega
  · rcases List.mem_append.mp ht with ht | ht
    · exact h.conserved hd task ht
    · exact List.mem_singleton.mp ht ▸ conserved_new path
  · exact fun hd' => (Bool.false_ne_true (hd.symm.trans hd')).elim

/-- With its join set empty a connection has no request left that runs. -/
theorem ConnInv.all_ended (h : ConnInv conn) (hj : conn.joinSet = []) :
    ∀ task ∈ conn.tasks, task.ended = true := by
  intro task ht
  obtain ⟨r,hr⟩ := List.mem_iff_getElem?.mp ht
  cases he : task.ended with
  | true => rfl
  | false => exact (List.not_mem_nil (hj ▸ h.joined r task hr he)).elim

theorem mem_discard {tasks : List RequestTask} {task : RequestTask}
    (h : task ∈ tasks.map RequestTask.discard) : ∃ old ∈ tasks, task = old.discard := by
  obtain ⟨old,hold,rfl⟩ := List.mem_map.mp h
  exact ⟨old,hold,rfl⟩

/-- Dropping the h3 connection once all requests are over. -/
theorem connInv_dropH3 (he : ∀ task ∈ conn.tasks, task.ended = true) (hk : conn.joinSet = []) :
    ConnInv conn.dropH3 := by
  have hall : ∀ task ∈ conn.dropH3.tasks, task.queued = [] ∧ task.ended = true := by
    intro task ht
    obtain ⟨old,hold,rfl⟩ := mem_discard ht
    exact ⟨rfl,he old hold⟩
  refine ⟨fun r task ht he' => ?_,fun r hr => ?_,nofun,fun _ => ⟨rfl,hall⟩⟩
  · exact (Bool.false_ne_true (he'.symm.trans (hall task (List.mem_of_getElem? ht)).2)).elim
  · exact (List.not_mem_nil (hk ▸ hr)).elim

theorem connInv_abort (conn : Conn) : ConnInv conn.abort := by
  refine connInv_dropH3 (fun task ht => ?_) rfl
  obtain ⟨old,-,rfl⟩ := List.mem_map.mp ht
  exact drop_ended old

theorem Conn.step_connInv (h : ConnInv conn) (hst : conn.step permits l = some (permits',conn')) :
    ConnInv conn' := by
  rcases Conn.step_cases hst with ⟨-,ht,hd,hp,-,hj⟩ | ⟨-,rfl⟩ | ⟨path,-,rfl,hp⟩ |
    ⟨r,task,next,⟨m,-,hm⟩,ht,rfl⟩ | ⟨r,task,next,-,hdel,ht,rfl⟩ | ⟨-,-,hj,rfl⟩
  · have hlive : conn.dropped = false := Bool.eq_false_iff.mpr fun hd' => hp (h.gone hd').1
    refine ⟨fun r task htr he => ?_,fun r hr => ?_,fun _ => ?_,fun hd' => ?_⟩
    · rw [ht] at htr
      have hmem := h.joined r task htr he
      rcases hj with hj | ⟨q,old,-,hq,hover,hj⟩
      · rw [hj]
        exact hmem
      · rw [hj]
        refine (List.mem_erase_of_ne ?_).mpr hmem
        rintro rfl
        cases htr.symm.trans hq
        exact Bool.false_ne_true (he.symm.trans hover)
    · rw [ht]
      rcases hj with hj | ⟨q,old,-,-,-,hj⟩
      · exact h.known r (hj ▸ hr)
      · exact h.known r (List.mem_of_mem_erase (hj ▸ hr))
    · rw [ht]
      exact h.conserved hlive
    · exact (Bool.false_ne_true (hlive.symm.trans (hd ▸ hd'))).elim
  · exact ⟨h.joined,h.known,h.conserved,h.gone⟩
  · exact h.spawn hp path
  · have hd := h.alive ht (.inl ⟨m,hm⟩)
    exact h.setTask ht hd (fun _ => not_ended_of_step hm) fun hc => hc.step hm
  · have hd := h.alive ht (.inr hdel)
    exact h.setTask ht hd (fun he => deliver_ended hdel ▸ he) fun hc => hc.deliver hdel
  · exact connInv_dropH3 (h.all_ended hj) hj

end GrpcQuic.Server

import GrpcQuic.Server.Draining
import GrpcQuic.Server.StreamLimit

/-! # The order of the requests of one connection

`handle_connection` takes the streams of its peer one after another and starts a
request for each head that is well formed and finds a permit.
-/
namespace GrpcQuic

theorem Server.Conn.step_up {permits permits' : ℕ} {conn conn' : Server.Conn} {l : Server.ConnLabel}
    (h : conn.step permits l = some (permits',conn')) (hup : conn'.up = true) : conn.up = true := by
  rcases (Conn.step_moves h).2.2 with rfl | rfl | he
  · simp only [Conn.step] at h
    split at h
    · cases h
      cases hup
    · cases h
  · simp only [Conn.step] at h
    split at h
    · assumption
    · cases h
  · exact he ▸ hup

namespace Peers
open Transition Server

def Progress.path : Progress (Option String) → Option String
  | .complete path => path
  | .incomplete => none

/-- The streams that the task is done with: it has handed them out, and it does
not wait for the head of the last one any more. -/
def Port.resolved (port : Port) : List (Progress (Option String)) :=
  port.link.streams.take (if port.conn.phase = .resolving then port.link.accepted - 1 else port.link.accepted)

def Port.heads (port : Port) : List String := port.resolved.filterMap Progress.path

def paths (conn : Conn) : List String := conn.tasks.map RequestTask.path

def PortLabel.dispatches : PortLabel → Option String
  | .conn (.resolved path) => path
  | _ => none

def Label.dispatches (c : ℕ) : Label → Option String
  | .port d l => if d = c then l.dispatches else none
  | _ => none

variable {permits permits' c : ℕ} {port port' : Port} {s t : State}

inductive Port.Turn (permits : ℕ) (port port' : Port) : Option String → Prop where
  | still : paths port'.conn = paths port.conn → port'.resolved = port.resolved → Turn permits port port' none
  | late (r : ℕ) (path : Option String) : port.resolved[r]? = some .incomplete →
    paths port'.conn = paths port.conn → port'.resolved = port.resolved.set r (.complete path) →
    Turn permits port port' none
  | skipped (p : Progress (Option String)) : paths port'.conn = paths port.conn →
    port'.resolved = port.resolved ++ [p] → (port'.conn.up = true → p = .complete none) →
    Turn permits port port' none
  | refused (path : String) : permits = 0 → paths port'.conn = paths port.conn →
    port'.resolved = port.resolved ++ [.complete (some path)] → Turn permits port port' (some path)
  | served (path : String) : 0 < permits → paths port'.conn = paths port.conn ++ [path] →
    port'.resolved = port.resolved ++ [.complete (some path)] → Turn permits port port' (some path)

theorem task_step_path {task next : RequestTask} {l : RequestLabel} (h : task.step l = some next) :
    next.path = task.path := by
  rcases RequestTask.step_cases h with ⟨-,-,rfl⟩ | ⟨ok,-,-,rfl⟩ | ⟨-,-,rfl⟩ | ⟨head,body,-,-,rfl⟩ |
    ⟨ok,-,-,rfl⟩ | ⟨m,sender,sender',-,-,-,-,rfl⟩ | ⟨-,-,rfl⟩ <;> rfl

theorem paths_setTask {conn : Conn} {r : ℕ} {task next : RequestTask} (ht : conn.tasks[r]? = some task)
    (hp : next.path = task.path) : paths (conn.setTask r next) = paths conn := by
  obtain ⟨hlt,hget⟩ := List.getElem?_eq_some_iff.mp ht
  have hsame : (conn.tasks.map RequestTask.path).set r next.path = conn.tasks.map RequestTask.path := by
    rw [hp,← hget,← List.getElem_map RequestTask.path,List.set_getElem_self]
    simpa using hlt
  rw [paths,Conn.setTask,List.map_set]
  exact hsame

theorem paths_map (conn : Conn) {f : RequestTask → RequestTask} (hf : ∀ task, (f task).path = task.path) :
    (conn.tasks.map f).map RequestTask.path = paths conn := by
  rw [List.map_map]
  exact List.map_congr_left fun task _ => hf task

/-- Only a head that finds a permit starts a request. -/
theorem step_paths {conn conn' : Conn} {l : ConnLabel} (h : conn.step permits l = some (permits',conn')) :
    (paths conn' = paths conn ∧ ∀ path, l = .resolved (some path) → permits = 0) ∨
    ∃ path, l = .resolved (some path) ∧ 0 < permits ∧ paths conn' = paths conn ++ [path] := by
  by_cases hl : ∃ head, l = .resolved head
  · obtain ⟨head,rfl⟩ := hl
    simp only [Conn.step] at h
    split at h
    · rename_i path _ _
      cases h
      refine .inr ⟨path,rfl,Nat.succ_pos _,?_⟩
      simp only [paths,Conn.spawn,List.map_append,List.map_singleton]
      rfl
    · rename_i hno
      cases h
      refine .inl ⟨rfl,fun path hpath => ?_⟩
      cases hpath
      by_contra hpos
      obtain ⟨n,rfl⟩ := Nat.exists_eq_succ_of_ne_zero hpos
      exact hno path n rfl rfl
    · cases h
  · have hkept (hp : paths conn' = paths conn) :
        paths conn' = paths conn ∧ ∀ path, l = .resolved (some path) → permits = 0 :=
      ⟨hp,fun path hpath => (hl ⟨some path,hpath⟩).elim⟩
    refine .inl (hkept ?_)
    rcases Conn.step_cases h with ⟨-,htasks,-⟩ | ⟨-,rfl⟩ | ⟨path,hpath,-,-⟩ |
      ⟨r,task,next,⟨m,-,hm⟩,ht,rfl⟩ | ⟨r,task,next,-,hdel,ht,rfl⟩ | ⟨-,-,-,rfl⟩
    · exact congrArg (List.map RequestTask.path) htasks
    · rfl
    · exact (hl ⟨some path,hpath⟩).elim
    · exact paths_setTask ht (task_step_path hm)
    · refine paths_setTask ht ?_
      unfold RequestTask.deliver at hdel
      split at hdel
      · cases hdel
        rfl
      · cases hdel
    · exact paths_map conn fun _ => rfl

/-- The stream whose head the task waits for is the next one that it will be done with. -/
theorem resolved_of_resolving (ho : port.Ordered) (hp : port.conn.phase = .resolving) :
    ∃ p, port.link.current = some p ∧ port.link.streams.take port.link.accepted = port.resolved ++ [p] := by
  have hpos := ho.awaited hp
  have hlt : port.link.accepted - 1 < port.link.streams.length := by
    have hle := ho.opened
    omega
  refine ⟨port.link.streams[port.link.accepted - 1],List.getElem?_eq_getElem hlt,?_⟩
  have hsucc : port.link.accepted = port.link.accepted - 1 + 1 := by omega
  rw [Port.resolved,if_pos hp]
  conv_lhs => rw [hsucc]
  rw [List.take_add_one,List.getElem?_eq_getElem hlt]
  rfl

theorem resolved_eq (hp : port.conn.phase ≠ .resolving) :
    port.resolved = port.link.streams.take port.link.accepted := by
  rw [Port.resolved,if_neg hp]

theorem port_turn (ho : port.Ordered) {m : PortLabel} (h : Port.step (permits,port) m = some (permits',port')) :
    port.Turn permits port' m.dispatches := by
  cases m with
  | grant =>
    cases h
    exact .still rfl rfl
  | openStream =>
    cases h
    refine .still rfl ?_
    refine List.take_append_of_le_length ?_
    have hle := ho.opened
    split
    · exact (Nat.sub_le _ _).trans hle
    · exact hle
  | head r path =>
    simp only [Port.step] at h
    split at h
    · rename_i hr
      cases h
      unfold PortLabel.dispatches
      by_cases hlt : r < (if port.conn.phase = .resolving then port.link.accepted - 1 else port.link.accepted)
      · refine .late r path ?_ rfl ?_
        · rw [Port.resolved,List.getElem?_take_of_lt hlt,hr]
        · exact List.take_set
      · exact .still rfl (List.take_set_of_le (Nat.le_of_not_lt hlt))
    · cases h
  | close =>
    cases h
    exact .still rfl rfl
  | lose =>
    obtain ⟨⟨n,conn⟩,hn,heq⟩ := Option.map_eq_some_iff.mp h
    cases heq
    simp only [Conn.step] at hn
    split at hn
    · cases hn
      exact .still rfl rfl
    · cases hn
  | conn n =>
    simp only [Port.step] at h
    split at h
    · rename_i hready
      obtain ⟨⟨k,conn⟩,hn,heq⟩ := Option.map_eq_some_iff.mp h
      cases heq
      have hsame (hd : ∀ path, n ≠ .resolved (some path)) : paths conn = paths port.conn := by
        rcases step_paths hn with ⟨hsame,-⟩ | ⟨path,hl,-⟩
        · exact hsame
        · exact (hd path hl).elim
      have hmoves := (Conn.step_moves hn).1
      generalize hp : port.conn.phase = p at hmoves
      generalize hp' : conn.phase = p' at hmoves
      have hoff (hpn : p ≠ .resolving) (hpn' : p' ≠ .resolving) (hl : (port.link.after n) = port.link) :
          (Port.mk conn (port.link.after n)).resolved = port.resolved := by
        have hbefore := @resolved_eq port (hp ▸ hpn)
        have hafter := @resolved_eq ⟨conn,port.link.after n⟩ (hp' ▸ hpn')
        rw [hbefore,hafter,hl]
      have hstays (hpp : p' = p) (hl : (port.link.after n) = port.link) :
          (Port.mk conn (port.link.after n)).resolved = port.resolved := by
        simp only [Port.resolved,hp,hp',hpp,hl]
      cases hmoves with
      | resolved head =>
        obtain ⟨q,hq,htake⟩ := resolved_of_resolving ho hp
        have hres : (Port.mk conn (port.link.after (.resolved head))).resolved = port.resolved ++ [q] := by
          rw [resolved_eq (show conn.phase ≠ .resolving from hp' ▸ by simp)]
          exact htake
        rcases Bool.or_eq_true_iff.mp hready with hcur | hlost
        · have hqc := Option.some.inj (hq.symm.trans (of_decide_eq_true hcur))
          subst hqc
          cases head with
          | none => exact .skipped _ (hsame (by simp)) hres fun _ => rfl
          | some path =>
            rcases step_paths hn with ⟨hkept,hzero⟩ | ⟨path',hl,hpos,hnew⟩
            · exact .refused path (hzero path rfl) hkept hres
            · cases hl
              exact .served path hpos hnew hres
        · obtain ⟨hnone,hdown⟩ := Bool.and_eq_true_iff.mp hlost
          cases Option.isNone_iff_eq_none.mp hnone
          refine .skipped q (hsame (by simp)) hres fun hup => ?_
          rw [Conn.step_up hn hup] at hdown
          cases hdown
      | accepted =>
        refine .still (hsame (by simp)) ?_
        rw [resolved_eq (show port.conn.phase ≠ .resolving from hp ▸ by simp)]
        simp only [Port.resolved,hp',if_true]
        rfl
      | request _ r l => exact .still (hsame (by simp)) (hstays rfl rfl)
      | deliver _ r => exact .still (hsame (by simp)) (hstays rfl rfl)
      | lost _ => exact .still (hsame (by simp)) (hstays rfl rfl)
      | join r => exact .still (hsame (by simp)) (hstays rfl rfl)
      | _ => exact .still (hsame (by simp)) (hoff (by simp) (by simp) rfl)
    · cases h

theorem port_step_up {m : PortLabel} (h : Port.step (permits,port) m = some (permits',port'))
    (hup : port'.conn.up = true) : port.conn.up = true := by
  cases m with
  | head r path =>
    simp only [Port.step] at h
    split at h
    · cases h
      exact hup
    · cases h
  | lose =>
    obtain ⟨⟨n,conn⟩,hn,heq⟩ := Option.map_eq_some_iff.mp h
    cases heq
    exact Conn.step_up hn hup
  | conn n =>
    simp only [Port.step] at h
    split at h
    · obtain ⟨⟨k,conn⟩,hn,heq⟩ := Option.map_eq_some_iff.mp h
      cases heq
      exact Conn.step_up hn hup
    · cases h
  | _ =>
    cases h
    exact hup

/-- A step at another port, or of the server, leaves the requests of the port, and
ends the task at most. -/
theorem step_turn (hI : PeersInv s) {l : Label} (hst : step s l = some t) (hc : s.port? c = some port)
    (hc' : t.port? c = some port') : port.Turn s.server.permits port' (l.dispatches c) ∧
      (port'.conn.up = true → port.conn.up = true) := by
  have hsame (h : t.port? c = s.port? c) : port' = port := by
    rw [h,hc] at hc'
    exact (Option.some.inj hc').symm
  cases l with
  | attempt =>
    cases hst
    cases hsame rfl
    exact ⟨.still rfl rfl,id⟩
  | complete i ok =>
    simp only [step] at hst
    split at hst
    · cases hst
      cases hsame rfl
      exact ⟨.still rfl rfl,id⟩
    · cases hst
  | port d m =>
    rw [step_port_eq] at hst
    obtain ⟨moved,hd,hst⟩ := Option.bind_eq_some_iff.mp hst
    obtain ⟨x,hm,rfl⟩ := Option.map_eq_some_iff.mp hst
    obtain ⟨hself,hothers⟩ := setPort_port hd x
    by_cases hdc : d = c
    · subst hdc
      cases hc.symm.trans hd
      cases hself.symm.trans hc'
      simp only [Label.dispatches,if_true]
      exact ⟨port_turn (hI.ports d port hc) hm,port_step_up hm⟩
    · cases hsame (hothers c (Ne.symm hdc))
      simp only [Label.dispatches,if_neg hdc]
      exact ⟨.still rfl rfl,id⟩
  | server m =>
    obtain ⟨next,hnext,hkept⟩ := step_port hst hc
    cases hnext.symm.trans hc'
    have hlink : port'.link = port.link := by
      rcases hkept with hkept | ⟨n,permits,hn,-⟩
      · exact hkept.link
      · cases hn
    simp only [step] at hst
    split at hst
    · rename_i hready
      obtain ⟨server,hm,rfl⟩ := Option.map_eq_some_iff.mp hst
      obtain ⟨conn',hconn',hmoved⟩ := step_place hm (port?_eq_some.mp hc).1
      cases (port?_eq_some.mp hc').1.symm.trans hconn'
      have hstill (hphase : port'.conn.phase = port.conn.phase) : port'.resolved = port.resolved := by
        rw [Port.resolved,Port.resolved,hphase,hlink]
      rcases hmoved with he | he | ⟨n,permits,rfl,-⟩ | he
      · exact ⟨.still (by rw [he]) (hstill (by rw [he])),fun hup => he ▸ hup⟩
      · refine ⟨.still (by rw [he]; rfl) (hstill (by rw [he])),fun hup => ?_⟩
        rw [he] at hup
        exact hup
      · cases hready
      · have hpaths : paths port'.conn = paths port.conn := by
          rw [he,paths,Conn.abort,Conn.dropH3,List.map_map]
          exact paths_map port.conn fun _ => rfl
        have hdown : port'.conn.up ≠ true := by
          rw [he]
          exact Bool.false_ne_true
        have hall : port'.resolved = port.link.streams.take port.link.accepted := by
          rw [@resolved_eq port' (by rw [he]; simp [Conn.abort,Conn.dropH3]),hlink]
        refine ⟨?_,fun hup => (hdown hup).elim⟩
        by_cases hp : port.conn.phase = .resolving
        · obtain ⟨p,-,htake⟩ := resolved_of_resolving (hI.ports c port hc) hp
          exact .skipped p hpaths (hall.trans htake) fun hup => (hdown hup).elim
        · exact .still hpaths (hall.trans (resolved_eq hp).symm)
    · cases hst

/-- A port has started no other requests than those it owes to its streams, in
their order. As long as the connection is up it has waited for every head. -/
structure Port.InOrder (port : Port) : Prop where
  started : (paths port.conn).Sublist port.heads
  awaited : port.conn.up = true → Progress.incomplete ∉ port.resolved

theorem heads_set {streams : List (Progress (Option String))} {r : ℕ} (hr : streams[r]? = some .incomplete)
    (path : Option String) :
    (streams.filterMap Progress.path).Sublist ((streams.set r (.complete path)).filterMap Progress.path) := by
  induction streams generalizing r with
  | nil => exact List.nil_sublist _
  | cons p streams ih =>
    cases r with
    | zero =>
      cases hr
      rw [List.set_cons_zero,List.filterMap_cons,List.filterMap_cons]
      cases path with
      | none => exact List.Sublist.refl _
      | some path => exact List.sublist_cons_self path _
    | succ r =>
      rw [List.set_cons_succ,List.filterMap_cons,List.filterMap_cons]
      cases p.path with
      | none => exact ih hr
      | some path => exact (ih hr).cons_cons path

theorem Port.heads_append {p : Progress (Option String)} (h : port'.resolved = port.resolved ++ [p]) :
    port'.heads = port.heads ++ p.path.toList := by
  rw [heads,heads,h,List.filterMap_append]
  cases hp : p.path <;> simp [hp]

variable {head : Option String}

theorem Port.Turn.inOrder (h : port.Turn permits port' head) (hup : port'.conn.up = true → port.conn.up = true)
    (ho : port.InOrder) : port'.InOrder := by
  obtain ⟨hstarted,hawaited⟩ := ho
  have hnext {p : Progress (Option String)} (hres : port'.resolved = port.resolved ++ [p])
      (hp : port'.conn.up = true → p ≠ .incomplete) : port'.conn.up = true → Progress.incomplete ∉ port'.resolved := by
    intro hu hmem
    rcases List.mem_append.mp (hres ▸ hmem) with hmem | hmem
    · exact hawaited (hup hu) hmem
    · exact hp hu (List.mem_singleton.mp hmem).symm
  cases h with
  | still hpaths hres =>
    refine ⟨?_,fun hu => hres ▸ hawaited (hup hu)⟩
    rw [hpaths,Port.heads,hres]
    exact hstarted
  | late r path hr hpaths hres =>
    refine ⟨?_,fun hu => (hawaited (hup hu) (List.mem_of_getElem? hr)).elim⟩
    rw [hpaths,Port.heads,hres]
    exact hstarted.trans (heads_set hr path)
  | skipped p hpaths hres hp =>
    refine ⟨?_,hnext hres fun hu => hp hu ▸ by simp⟩
    rw [hpaths,Port.heads_append hres]
    exact hstarted.trans (List.sublist_append_left _ _)
  | refused path _ hpaths hres =>
    refine ⟨?_,hnext hres fun _ => by simp⟩
    rw [hpaths,Port.heads_append hres]
    exact hstarted.trans (List.sublist_append_left _ _)
  | served path _ hpaths hres =>
    refine ⟨?_,hnext hres fun _ => by simp⟩
    rw [hpaths,Port.heads_append hres]
    exact hstarted.append (List.Sublist.refl [path])

/-- On a connection that is up, only a head without a permit is left out. -/
theorem Port.Turn.all_iff (h : port.Turn permits port' head) (ho : port.InOrder) (hup : port.conn.up = true)
    (hup' : port'.conn.up = true) (hall : paths port.conn = port.heads) :
    paths port'.conn = port'.heads ↔ (head ≠ none → 0 < permits) := by
  cases h with
  | still hpaths hres => simp [hpaths,Port.heads,hres,hall]
  | late r path hr => exact (ho.awaited hup (List.mem_of_getElem? hr)).elim
  | skipped p hpaths hres hp =>
    rw [hpaths,Port.heads_append hres,hp hup',hall]
    simp [Progress.path]
  | refused path hzero hpaths hres =>
    rw [hpaths,Port.heads_append hres,hzero,hall]
    simp [Progress.path]
  | served path hpos hpaths hres =>
    rw [hpaths,Port.heads_append hres,hall]
    simp [Progress.path,hpos]

/-- What is left out once is never made up for. -/
theorem Port.Turn.all_back (h : port.Turn permits port' head) (ho : port.InOrder)
    (hall : paths port'.conn = port'.heads) : paths port.conn = port.heads := by
  have hmore {tail : List String} (hpaths : paths port'.conn = paths port.conn)
      (hheads : port'.heads = port.heads ++ tail) : paths port.conn = port.heads := by
    refine ho.started.eq_of_length_le ?_
    rw [← hpaths,hall,hheads]
    exact (List.sublist_append_left _ _).length_le
  cases h with
  | still hpaths hres => rw [← hpaths,hall,Port.heads,Port.heads,hres]
  | late r path hr hpaths hres =>
    refine ho.started.eq_of_length_le ?_
    rw [← hpaths,hall,Port.heads,Port.heads,hres]
    exact (heads_set hr path).length_le
  | skipped p hpaths hres => exact hmore hpaths (Port.heads_append hres)
  | refused path _ hpaths hres => exact hmore hpaths (Port.heads_append hres)
  | served path _ hpaths hres =>
    rw [hpaths,Port.heads_append hres] at hall
    exact List.append_cancel_right hall

theorem port_of_dispatches {l : Label} (hst : step s l = some t) (hd : l.dispatches c ≠ none) :
    ∃ port, s.port? c = some port := by
  cases l with
  | port d m =>
    obtain ⟨port,hc,-⟩ := Option.bind_eq_some_iff.mp hst
    by_cases hdc : d = c
    · exact ⟨port,hdc ▸ hc⟩
    · simp only [Label.dispatches,if_neg hdc] at hd
      exact (hd rfl).elim
  | _ => exact (hd rfl).elim

theorem port_new (hI : PeersInv s) {l : Label} (hst : step s l = some t) (hc' : t.port? c = some port') :
    (∃ port, s.port? c = some port) ∨ port' = ⟨.new,.new⟩ := by
  obtain ⟨hconn,hlink⟩ := port?_eq_some.mp hc'
  have hold (hlt : c < s.links.length) : ∃ port, s.port? c = some port := by
    have hlt' : c < s.server.conns.length := hI.paired ▸ hlt
    exact ⟨⟨s.server.conns[c],s.links[c]⟩,
      port?_eq_some.mpr ⟨List.getElem?_eq_getElem hlt',List.getElem?_eq_getElem hlt⟩⟩
  rcases step_lengths hst with ⟨-,hlen⟩ | ⟨hconns,hlinks⟩
  · exact .inl (hold (hlen ▸ (List.getElem?_eq_some_iff.mp hlink).1))
  · by_cases hlt : c < s.links.length
    · exact .inl (hold hlt)
    · have hclen : c = s.links.length := by
        have hlt' := (List.getElem?_eq_some_iff.mp hlink).1
        rw [hlinks,List.length_append,List.length_singleton] at hlt'
        omega
      rw [hlinks,hclen,List.getElem?_concat_length] at hlink
      rw [hconns,hclen,hI.paired,List.getElem?_concat_length] at hconn
      obtain ⟨conn,link⟩ := port'
      cases hlink
      cases hconn
      exact .inr rfl

structure OrderInv (server : QuicServer) (c : ℕ) (s : State) : Prop where
  peers : PeersInv s
  permits : s.server.permits + s.server.running = server.streamLimit
  order : ∀ port, s.port? c = some port → port.InOrder

variable {server : QuicServer}

theorem inOrder_new : Port.InOrder ⟨.new,.new⟩ := ⟨List.Sublist.refl [],fun _ => List.not_mem_nil⟩

theorem orderInv_init : OrderInv server c (.init server) where
  peers := peersInv_init server
  permits := rfl
  order := fun _ h => by cases h

theorem step_orderInv (h : OrderInv server c s) {l : Label} (hst : step s l = some t) : OrderInv server c t where
  peers := step_peersInv h.peers hst
  permits := by
    rcases step_server hst with ht | ⟨m,hm⟩
    · rw [ht]
      exact h.permits
    · exact (step_permits hm).trans h.permits
  order := by
    intro port' hc'
    rcases port_new h.peers hst hc' with ⟨port,hc⟩ | rfl
    · obtain ⟨hturn,hup⟩ := step_turn h.peers hst hc hc'
      exact hturn.inOrder hup (h.order port hc)
    · exact inOrder_new

def Complete (c : ℕ) (s : State) : Prop := ∀ port, s.port? c = some port → paths port.conn = port.heads

def Admits (server : QuicServer) (c : ℕ) (s : State) (l : Label) : Prop :=
  l.dispatches c ≠ none → s.server.running < server.streamLimit

def Up (c : ℕ) (s : State) : Prop := ∀ port, s.port? c = some port → port.conn.up = true

theorem step_complete (h : OrderInv server c s) (hall : Complete c s) {l : Label} (hst : step s l = some t)
    (hup : Up c t) : Complete c t ↔ Admits server c s l := by
  have hfree : 0 < s.server.permits ↔ s.server.running < server.streamLimit := by
    have hpermits := h.permits
    omega
  cases hc : s.port? c with
  | none =>
    have hno : l.dispatches c = none := by
      by_contra hd
      obtain ⟨port,hc'⟩ := port_of_dispatches hst hd
      cases hc.symm.trans hc'
    refine ⟨fun _ hd => (hd hno).elim,fun _ port' hc' => ?_⟩
    rcases port_new h.peers hst hc' with ⟨port,hc''⟩ | rfl
    · cases hc.symm.trans hc''
    · rfl
  | some port =>
    obtain ⟨port',hc',-⟩ := step_port hst hc
    obtain ⟨hturn,hback⟩ := step_turn h.peers hst hc hc'
    have hiff := hturn.all_iff (h.order port hc) (hback (hup port' hc')) (hup port' hc') (hall port hc)
    rw [hfree] at hiff
    refine ⟨fun hall' => hiff.mp (hall' port' hc'),fun hadm port'' hc'' => ?_⟩
    cases hc'.symm.trans hc''
    exact hiff.mpr hadm

/-- The requests of a connection are started in the order of its streams, each from
a well formed head of its own. As long as the connection is up none of these heads
is left out if and only if none is taken while `streamLimit` requests are running. -/
theorem requests_in_order (server : QuicServer) {ls : List Label} (h : exec step (.init server) ls = some s)
    (hc : s.port? c = some port) : (paths port.conn).Sublist port.heads ∧
      (port.conn.up = true → (paths port.conn = port.heads ↔ Meets step (Admits server c) (.init server) ls)) := by
  have hinv : ∀ u l v, OrderInv server c u → step u l = some v → OrderInv server c v :=
    fun u l v hu hst => step_orderInv hu hst
  have hI := exec_invariant hinv orderInv_init h
  refine ⟨(hI.order port hc).started,fun hup => ?_⟩
  have hthere {P : Port → Prop} (hP : P port) : ∀ p, s.port? c = some p → P p := by
    intro p hp
    cases hc.symm.trans hp
    exact hP
  have halways : Always step (Up c) (.init server) ls := by
    refine always_of_last hinv ?_ orderInv_init h (hthere hup)
    intro u l v hu hst hv p hp
    obtain ⟨p',hp',-⟩ := step_port hst hp
    exact (step_turn hu.peers hst hp hp').2 (hv p' hp')
  have hmeets := always_iff_meets (C := Admits server c) (P := Complete c) (fun u l v hu _ => hinv u l v hu)
    (fun u l v hu hall hv hst => step_complete hu hall hst (hv v hst)) orderInv_init (fun p hp => by cases hp)
    halways.meets h
  rw [← hmeets]
  constructor
  · intro hall
    refine always_of_last hinv ?_ orderInv_init h (hthere hall)
    intro u l v hu hst hv p hp
    obtain ⟨p',hp',-⟩ := step_port hst hp
    exact (step_turn hu.peers hst hp hp').1.all_back (hu.order p hp) (hv p' hp')
  · exact fun hall => hall.last h port hc

def threeStreams : List Label :=
  [.attempt,.complete 0 true,.server .incoming,.server (.handshake true),.port 0 .grant,.port 0 (.conn (.built true)),
    .port 0 .openStream,.port 0 .openStream,.port 0 .openStream,
    .port 0 (.head 2 (some "/bye")),.port 0 (.head 1 none),.port 0 (.head 0 (some "/hello")),
    .port 0 (.conn .accepted),.port 0 (.conn (.resolved (some "/hello"))),.port 0 (.conn .accepted),
    .port 0 (.conn (.resolved none)),.port 0 (.conn .accepted),.port 0 (.conn (.resolved (some "/bye")))]

theorem threeStreams_state : ∃ s port, exec step (.init ⟨256⟩) threeStreams = some s ∧ s.port? 0 = some port ∧
    port.conn.up = true ∧ paths port.conn = ["/hello","/bye"] := ⟨_,_,rfl,rfl,rfl,rfl⟩

theorem requests_in_order_threeStreams : ∃ (s : State) (port : Port),
    exec step (.init ⟨256⟩) threeStreams = some s ∧ port.conn.up = true ∧ (paths port.conn).Sublist port.heads ∧
      (port.conn.up = true →
        (paths port.conn = port.heads ↔ Meets step (Admits ⟨256⟩ 0) (.init ⟨256⟩) threeStreams)) := by
  obtain ⟨s,port,hs,hc,hup,-⟩ := threeStreams_state
  exact ⟨s,port,hs,hup,requests_in_order ⟨256⟩ hs hc⟩

end Peers

end GrpcQuic

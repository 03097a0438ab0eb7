import GrpcQuic.Client.RpcGuarantees

/-! # What a client does to its stream halves

A call sends on one half of its stream through the forwarder and reads the other
one, first for the response head and then through the response body. Each step
of a client leaves both halves alone or does one of eight things to them.
-/
namespace GrpcQuic.Rpc
open Transition
variable {req : Request} {s t : State}

structure HalvesInv (s : State) : Prop where
  owner : OwnerInv s
  spawned : s.forwarder ≠ none → s.call.phase = .awaitingResponse ∨ ∃ r, s.call.phase = .done r
  unspawned : s.forwarder = none → s.half = none ∧ s.body = .absent
  unread : s.body = .absent → s.yielded = []
  apart : s.body ≠ .absent → s.half = none
  answered : s.body ≠ .absent → ∃ head, s.call.phase = .done (.ok head)

def State.reader (req : Request) (s : State) : Option (ClientRecvBody RecvHalf) :=
  match s.half, s.body with
  | some half, _ => some (.new half true true req.deadline)
  | none, .present body => some body
  | none, _ => none

def Label.still : Label → Bool
  | .call (.sent (.ok _)) => false
  | .call (.responded (.error _)) => false
  | .call _ => true
  | .tick _ => true
  | _ => false

/-- What a step does to the forwarder, to the reader and to what it has yielded. -/
inductive Moves (req : Request) (s t : State) : Label → Prop where
  | still (l : Label) (hl : l.still = true) (hf : t.forwarder = s.forwarder)
    (hr : t.reader req = s.reader req) (hy : t.yielded = s.yielded) : Moves req s t l
  | spawn (hf : s.forwarder = none) (hf' : t.forwarder = some (.forward req.body))
    (hr : t.reader req = some (.new .new true true req.deadline)) (hy : s.yielded = [])
    (hy' : t.yielded = []) : Moves req s t (.call (.sent (.ok ())))
  | fail (m : String) (hf : t.forwarder = s.forwarder.map (Sender.abort forwarderLoop))
    (hr : t.reader req = none) (hy : t.yielded = s.yielded) : Moves req s t (.call (.responded (.error m)))
  | release (l : Label) (hl : l = .timeout ∨ l = .dropCall) (hf : t.forwarder = s.forwarder)
    (hr : t.reader req = none) (hy : t.yielded = s.yielded) : Moves req s t l
  | forward (m : SendLabel) (f f' : Sender Forwarder) (hf : s.forwarder = some f)
    (hst : f.step forwarderLoop m = some f') (hf' : t.forwarder = some f')
    (hr : t.reader req = s.reader req) (hy : t.yielded = s.yielded) : Moves req s t (.forward m)
  | arrive (d : Bytes) (c : ClientRecvBody RecvHalf) (hc : s.reader req = some c)
    (he : c.stream.ending = none) (hf : t.forwarder = s.forwarder)
    (hr : t.reader req = some { c with stream := { c.stream with chunks := c.stream.chunks ++ [d] } })
    (hy : t.yielded = s.yielded) : Moves req s t (.arrive d)
  | arriveEnd (e : Except String (Option HeaderMap)) (c : ClientRecvBody RecvHalf)
    (hc : s.reader req = some c) (he : c.stream.ending = none) (hf : t.forwarder = s.forwarder)
    (hr : t.reader req = some { c with stream := { c.stream with ending := some e } })
    (hy : t.yielded = s.yielded) : Moves req s t (.arriveEnd e)
  | poll (c : ClientRecvBody RecvHalf) (hb : s.body = .present c) (hc : s.reader req = some c)
    (hf : t.forwarder = (s.abortIf (c.pollAborts s.now)).forwarder)
    (hr : t.reader req = some (c.pollFrame s.now s.err).2)
    (hy : t.yielded = s.yielded ++ (c.pollFrame s.now s.err).1.toList) : Moves req s t .poll
  | dropBody (c : ClientRecvBody RecvHalf) (hb : s.body = .present c)
    (hf : t.forwarder = (s.abortIf c.dropAborts).forwarder) (hr : t.reader req = none)
    (hy : t.yielded = s.yielded) : Moves req s t .dropBody

theorem halvesInv_init : HalvesInv State.init :=
  ⟨ownerInv_init,fun h => (h rfl).elim,fun _ => ⟨rfl,rfl⟩,fun _ => rfl,fun h => (h rfl).elim,
    fun h => (h rfl).elim⟩

theorem reader_of_half {half : RecvHalf} (h : s.half = some half) :
    s.reader req = some (.new half true true req.deadline) := by
  unfold State.reader
  rw [h]

theorem reader_of_body {c : ClientRecvBody RecvHalf} (h : s.half = none) (hb : s.body = .present c) :
    s.reader req = some c := by
  unfold State.reader
  rw [h,hb]

theorem reader_of_none (h : s.half = none) (hb : ∀ c, s.body ≠ .present c) : s.reader req = none := by
  unfold State.reader
  rw [h]
  cases hs : s.body with
  | present c => exact (hb c hs).elim
  | absent => rfl
  | dropped => rfl

theorem HalvesInv.no_forwarder (h : HalvesInv s) (ha : s.call.phase ≠ .awaitingResponse)
    (hd : ∀ r, s.call.phase ≠ .done r) : s.forwarder = none := by
  by_contra hf
  rcases h.spawned hf with hp | ⟨r,hp⟩
  · exact ha hp
  · exact hd r hp

theorem mapHalf_reader (req : Request) {f : RecvHalf → RecvHalf} (hst : s.mapHalf f = some t) :
    ∃ c, s.reader req = some c ∧ c.stream.ending = none ∧
      t.reader req = some { c with stream := f c.stream } ∧ t.forwarder = s.forwarder ∧
      t.yielded = s.yielded := by
  rcases mapHalf_cases hst with ⟨half,hh,he,rfl⟩ | ⟨c,hh,hb,he,rfl⟩
  · exact ⟨.new half true true req.deadline,reader_of_half hh,he,rfl,rfl,rfl⟩
  · refine ⟨c,reader_of_body hh hb,he,?_,rfl,rfl⟩
    exact reader_of_body hh rfl

/-- Other events than the opening of the stream and its response leave the halves alone. -/
theorem onEvent_other (req : Request) {e : Call.Event} (hr : ∀ r, e ≠ .responded r) (hs : e ≠ .sent (.ok ())) :
    Label.still (.call e) = true ∧ ∀ s : State, s.onEvent req e = s := by
  cases e with
  | sent r =>
    cases r with
    | ok _ => exact (hs rfl).elim
    | error _ => exact ⟨rfl,fun _ => rfl⟩
  | responded r => exact (hr r rfl).elim
  | _ => exact ⟨rfl,fun _ => rfl⟩

/-- The response body takes the receive half over from the call. -/
theorem onEvent_head {half : RecvHalf} (cs : Call.State) (head : ResponseHead)
    (hh : s.half = some half) :
    (s.goOn req cs).onEvent req (.responded (.ok head)) =
      { s with
        call := cs
        wakeAt := s.wakeAfter req cs
        half := none
        body := .present (.new half true true req.deadline) } := by
  simp only [State.onEvent,State.goOn,hh]

theorem HalvesInv.moves_call (h : HalvesInv s) {e : Call.Event} {cs : Call.State} (hd : s.dropped = false)
    (hcs : Call.step req.call s.call e = some cs) :
    Moves req s ((s.goOn req cs).onEvent req e) (.call e) := by
  rcases call_step_cases hcs with ⟨entry,rfl,hp,-⟩ | ⟨r,res,rfl,hp,-⟩ | ⟨hr,hs,-⟩
  · have hb := h.owner.early (by rw [hp]; exact nofun)
    have hf := h.no_forwarder (by rw [hp]; exact nofun) (by rw [hp]; exact nofun)
    exact .spawn hf rfl rfl (h.unread hb) (h.unread hb)
  · obtain ⟨half,hhalf⟩ := Option.ne_none_iff_exists'.mp (h.owner.held hp hd)
    have hb := h.owner.early (by rw [hp]; exact nofun)
    cases r with
    | ok head =>
      rw [onEvent_head cs head hhalf]
      exact .still _ rfl rfl (reader_of_half hhalf).symm rfl
    | error m =>
      refine .fail m rfl (reader_of_none rfl fun c hc => ?_) rfl
      exact nomatch hb.symm.trans hc
  · obtain ⟨hl,hev⟩ := onEvent_other req hr hs
    rw [hev]
    exact .still _ hl rfl rfl rfl

theorem HalvesInv.moves (h : HalvesInv s) {l : Label} (hst : step req s l = some t) : Moves req s t l := by
  rcases step_cases hst with ⟨e,cs,rfl,hd,hcs,rfl⟩ | ⟨hl,hp,rfl⟩ | ⟨m,f,f',rfl,hm,hf,hf',rfl⟩ |
    ⟨d,u,rfl,hu,rfl⟩ | ⟨e,u,rfl,hu,rfl⟩ | ⟨n,rfl,rfl⟩ | ⟨c,rfl,hb,rfl⟩ | ⟨c,rfl,hb,rfl⟩
  · exact h.moves_call hd hcs
  · refine .release l hl rfl (reader_of_none rfl fun c hc => ?_) rfl
    exact nomatch (h.owner.early ((pending_iff s).mp hp).2).symm.trans hc
  · exact .forward m f f' hf hf' rfl rfl rfl
  · obtain ⟨c,hc,he,hr,hf,hy⟩ := mapHalf_reader req hu
    exact .arrive d c hc he hf hr hy
  · obtain ⟨c,hc,he,hr,hf,hy⟩ := mapHalf_reader req hu
    exact .arriveEnd e c hc he hf hr hy
  · exact .still _ rfl rfl rfl rfl
  · have hh := h.apart (by rw [hb]; exact nofun)
    refine .poll c hb (reader_of_body hh hb) rfl (reader_of_body ?_ rfl) ?_
    · cases c.pollAborts s.now <;> exact hh
    · cases c.pollAborts s.now <;> rfl
  · have hh := h.apart (by rw [hb]; exact nofun)
    refine .dropBody c hb rfl (reader_of_none ?_ nofun) ?_
    · cases c.dropAborts <;> exact hh
    · cases c.dropAborts <;> rfl

theorem abortIf_forwarder (s : State) (b : Bool) : (s.abortIf b).forwarder = none ↔ s.forwarder = none := by
  cases b with
  | false => exact Iff.rfl
  | true => exact Option.map_eq_none_iff

theorem HalvesInv.call (h : HalvesInv s) {e : Call.Event} {cs : Call.State} (hd : s.dropped = false)
    (hcs : Call.step req.call s.call e = some cs) : HalvesInv ((s.goOn req cs).onEvent req e) := by
  have hO := h.owner.call hd hcs
  rcases call_step_cases hcs with ⟨entry,rfl,hp,hp'⟩ | ⟨r,res,rfl,hp,hp'⟩ | ⟨hr,hs,hp,hp',hp''⟩
  · have hb := h.owner.early (by rw [hp]; exact nofun)
    exact ⟨hO,fun _ => .inl hp',nofun,fun _ => h.unread hb,fun hb' => (hb' hb).elim,fun hb' => (hb' hb).elim⟩
  · obtain ⟨half,hhalf⟩ := Option.ne_none_iff_exists'.mp (h.owner.held hp hd)
    have hb := h.owner.early (by rw [hp]; exact nofun)
    have hf : s.forwarder ≠ none := fun hf => nomatch hhalf.symm.trans (h.unspawned hf).1
    cases r with
    | ok head =>
      rw [onEvent_head cs head hhalf] at hO ⊢
      refine ⟨hO,fun _ => .inr ⟨res,hp'⟩,fun hf' => (hf hf').elim,nofun,fun _ => rfl,fun _ => ⟨head,?_⟩⟩
      simp only [Call.step,hp] at hcs
      cases hcs
      rfl
    | error m =>
      refine ⟨hO,fun _ => .inr ⟨res,hp'⟩,fun hf' => (hf (Option.map_eq_none_iff.mp hf')).elim,
        fun _ => h.unread hb,fun hb' => (hb' hb).elim,fun hb' => (hb' hb).elim⟩
  · have hf := h.no_forwarder hp hp'
    have hb := h.owner.early hp'
    rw [(onEvent_other req hr hs).2] at hO ⊢
    exact ⟨hO,fun hf' => (hf' hf).elim,h.unspawned,h.unread,h.apart,fun hb' => (hb' hb).elim⟩

theorem step_halvesInv (h : HalvesInv s) {l : Label} (hst : step req s l = some t) : HalvesInv t := by
  have hO := step_ownerInv h.owner hst
  rcases step_cases hst with ⟨e,cs,rfl,hd,hcs,rfl⟩ | ⟨hl,hp,rfl⟩ | ⟨m,f,f',rfl,hm,hf,hf',rfl⟩ |
    ⟨d,u,rfl,hu,rfl⟩ | ⟨e,u,rfl,hu,rfl⟩ | ⟨n,rfl,rfl⟩ | ⟨c,rfl,hb,rfl⟩ | ⟨c,rfl,hb,rfl⟩
  · exact h.call hd hcs
  · exact ⟨hO,h.spawned,fun hf => ⟨rfl,(h.unspawned hf).2⟩,h.unread,fun _ => rfl,h.answered⟩
  · have hsp := h.spawned (by rw [hf]; exact nofun)
    exact ⟨hO,fun _ => hsp,nofun,h.unread,h.apart,h.answered⟩
  · rcases mapHalf_cases hu with ⟨half,hh,-,rfl⟩ | ⟨c,hh,hb,-,rfl⟩
    · exact ⟨hO,h.spawned,fun hf => (nomatch hh.symm.trans (h.unspawned hf).1),h.unread,
        fun hb => (nomatch hh.symm.trans (h.apart hb)),h.answered⟩
    · exact ⟨hO,h.spawned,fun hf => (nomatch hb.symm.trans (h.unspawned hf).2),nofun,fun _ => hh,
        fun _ => h.answered (by rw [hb]; exact nofun)⟩
  · rcases mapHalf_cases hu with ⟨half,hh,-,rfl⟩ | ⟨c,hh,hb,-,rfl⟩
    · exact ⟨hO,h.spawned,fun hf => (nomatch hh.symm.trans (h.unspawned hf).1),h.unread,
        fun hb => (nomatch hh.symm.trans (h.apart hb)),h.answered⟩
    · exact ⟨hO,h.spawned,fun hf => (nomatch hb.symm.trans (h.unspawned hf).2),nofun,fun _ => hh,
        fun _ => h.answered (by rw [hb]; exact nofun)⟩
  · exact ⟨hO,h.spawned,h.unspawned,h.unread,h.apart,h.answered⟩
  · have hh := h.apart (by rw [hb]; exact nofun)
    have hf := abortIf_forwarder s (c.pollAborts s.now)
    refine ⟨hO,fun hf' => ?_,fun hf' => ?_,nofun,fun _ => ?_,fun _ => ?_⟩
    · rw [abortIf_call]
      exact h.spawned fun hn => hf' (hf.mpr hn)
    · exact (nomatch hb.symm.trans (h.unspawned (hf.mp hf')).2)
    · cases c.pollAborts s.now <;> exact hh
    · rw [abortIf_call]
      exact h.answered (by rw [hb]; exact nofun)
  · have hh := h.apart (by rw [hb]; exact nofun)
    have hf := abortIf_forwarder s c.dropAborts
    refine ⟨hO,fun hf' => ?_,fun hf' => ?_,nofun,fun _ => ?_,fun _ => ?_⟩
    · rw [abortIf_call]
      exact h.spawned fun hn => hf' (hf.mpr hn)
    · exact (nomatch hb.symm.trans (h.unspawned (hf.mp hf')).2)
    · cases c.dropAborts <;> exact hh
    · rw [abortIf_call]
      exact h.answered (by rw [hb]; exact nofun)

end GrpcQuic.Rpc

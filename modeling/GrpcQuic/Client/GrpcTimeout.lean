import GrpcQuic.Client.Retry
import GrpcQuic.Core.Http
import GrpcQuic.Text.Decimal

/-! # The deadline that `grpc-timeout` sets

`parse_grpc_timeout` and the deadline that `QuicChannel::call` computes with it,
with every operation that may overflow. Time is counted in nanoseconds.
-/
namespace GrpcQuic.Timeout
open Retry Text

inductive Panic where
  | charBoundary
  | multiplyOverflow
  | instantOverflow
  deriving DecidableEq, Repr

def isVisibleAscii (c : Char) : Bool := (32 ≤ c.toNat && c.toNat < 127) || c == '\t'

/-- `HeaderValue::to_str`. -/
def toStr (value : String) : Option String :=
  if value.toList.all isVisibleAscii then some value else none

def fromSecs (secs : ℕ) : Duration := secs * 1000000000
def fromMicros (micros : ℕ) : Duration := micros * 1000
def fromNanos (nanos : ℕ) : Duration := nanos

/-- `a * b` on `u64`: a build with overflow checks panics where another one wraps. -/
def mulU64 (overflowChecks : Bool) (a b : ℕ) : Except Panic ℕ :=
  if a * b < 2 ^ 64 then .ok (a * b)
  else if overflowChecks then .error .multiplyOverflow
  else .ok (a * b % 2 ^ 64)

def unitDuration (overflowChecks : Bool) (val : ℕ) : Char → Except Panic (Option Duration)
  | 'H' => (mulU64 overflowChecks val 3600).map fun secs => some (fromSecs secs)
  | 'M' => (mulU64 overflowChecks val 60).map fun secs => some (fromSecs secs)
  | 'S' => .ok (some (fromSecs val))
  | 'm' => .ok (some (Duration.fromMillis val))
  | 'u' => .ok (some (fromMicros val))
  | 'n' => .ok (some (fromNanos val))
  | _ => .ok none

/-- `split_at` cuts one byte off the end, so it panics on a longer last character. -/
def parseGrpcTimeout (overflowChecks : Bool) (timeoutStr : String) : Except Panic (Option Duration) :=
  match timeoutStr.toList.getLast? with
  | none => .ok none
  | some unit =>
    if unit.utf8Size = 1 then
      match readUnsigned (2 ^ 64) timeoutStr.toList.dropLast with
      | none => .ok none
      | some val => unitDuration overflowChecks val unit
    else .error .charBoundary

/-- `Instant + Duration`, whose seconds are a signed 64-bit number. -/
def instantAdd (now : ℕ) (d : Duration) : Except Panic ℕ :=
  if (now + d) / 1000000000 < 2 ^ 63 then .ok (now + d) else .error .instantOverflow

/-- The deadline computation of `QuicChannel::call`. -/
def deadline (overflowChecks : Bool) (now : ℕ) (headers : HeaderMap) : Except Panic (Option ℕ) :=
  match headers.get "grpc-timeout" with
  | none => .ok none
  | some timeoutVal =>
    match toStr timeoutVal with
    | none => .ok none
    | some timeoutStr =>
      (parseGrpcTimeout overflowChecks timeoutStr).bind fun
        | none => .ok none
        | some d => (instantAdd now d).map some

def unitNanos : Char → Option ℕ
  | 'H' => some 3600000000000
  | 'M' => some 60000000000
  | 'S' => some 1000000000
  | 'm' => some 1000000
  | 'u' => some 1000
  | 'n' => some 1
  | _ => none

def Written (s : String) (plus : Bool) (ds : List Char) (nanos : ℕ) : Prop :=
  ∃ u, s.toList = signed plus ds ++ [u] ∧ ds ≠ [] ∧ Digits ds ∧ unitNanos u = some nanos

/-- The grammar of the gRPC protocol: one to eight digits and a unit. -/
def Grammar (s : String) (d : Duration) : Prop :=
  ∃ ds nanos, Written s false ds nanos ∧ ds.length ≤ 8 ∧ d = decimalValue ds * nanos

variable {overflowChecks : Bool} {s : String} {plus plus' : Bool} {ds ds' : List Char}
  {nanos nanos' now val : ℕ} {u : Char} {headers : HeaderMap}

theorem Written.unique (h : Written s plus ds nanos) (h' : Written s plus' ds' nanos') :
    plus = plus' ∧ ds = ds' ∧ nanos = nanos' := by
  obtain ⟨u,hs,-,hd,hu⟩ := h
  obtain ⟨u',hs',-,hd',hu'⟩ := h'
  obtain ⟨hfront,hlast⟩ := List.append_inj' (hs.symm.trans hs') rfl
  obtain ⟨hplus,hds⟩ := signed_inj hd hd' hfront
  cases hlast
  exact ⟨hplus,hds,Option.some.inj (hu.symm.trans hu')⟩

theorem unitDuration_none (h : unitNanos u = none) : unitDuration overflowChecks val u = .ok none := by
  unfold unitNanos at h
  unfold unitDuration
  split at h <;> cases h
  rfl

theorem utf8Size_unit (h : unitNanos u = some nanos) : u.utf8Size = 1 := by
  unfold unitNanos at h
  split at h <;> first | rfl | cases h

theorem utf8Size_visible (h : isVisibleAscii u = true) : u.utf8Size = 1 := by
  rw [Char.utf8Size_eq_one_iff,UInt32.le_iff_toNat_le]
  change u.toNat ≤ 127
  unfold isVisibleAscii at h
  rcases Bool.or_eq_true_iff.mp h with h | h
  · have hlt := of_decide_eq_true (Bool.and_eq_true_iff.mp h).2
    omega
  · rw [eq_of_beq h]
    decide

theorem mulU64_of_lt {a b : ℕ} (h : a * b < 2 ^ 64) : mulU64 overflowChecks a b = .ok (a * b) := if_pos h

theorem mulU64_of_le (overflowChecks : Bool) {a b : ℕ} (h : 2 ^ 64 ≤ a * b) :
    mulU64 overflowChecks a b = .error .multiplyOverflow ∨
      ∃ c, mulU64 overflowChecks a b = .ok c ∧ c < a * b := by
  unfold mulU64
  rw [if_neg (by omega)]
  cases overflowChecks with
  | true => exact .inl rfl
  | false => exact .inr ⟨a * b % 2 ^ 64,rfl,by omega⟩

theorem scaled_exact {factor : ℕ} (hf : factor * 1000000000 = nanos)
    (hfit : val * nanos < 2 ^ 64 * 1000000000) :
    (mulU64 overflowChecks val factor).map (fun secs => some (fromSecs secs)) = .ok (some (val * nanos)) := by
  have hns : val * factor * 1000000000 = val * nanos := by rw [Nat.mul_assoc,hf]
  rw [← hns] at hfit
  have hmul : val * factor < 2 ^ 64 := Nat.lt_of_mul_lt_mul_right hfit
  rw [mulU64_of_lt hmul,← hns]
  rfl

theorem scaled_overflow (overflowChecks : Bool) {factor : ℕ} (hf : factor * 1000000000 = nanos)
    (hbig : 2 ^ 64 * 1000000000 ≤ val * nanos) :
    (mulU64 overflowChecks val factor).map (fun secs => some (fromSecs secs)) = .error .multiplyOverflow ∨
      ∃ d, (mulU64 overflowChecks val factor).map (fun secs => some (fromSecs secs)) = .ok (some d) ∧
        d < val * nanos := by
  have hns : val * factor * 1000000000 = val * nanos := by rw [Nat.mul_assoc,hf]
  have hle : 2 ^ 64 ≤ val * factor := by omega
  rcases mulU64_of_le overflowChecks hle with he | ⟨c,hc,hlt⟩
  · rw [he]
    exact .inl rfl
  · rw [hc]
    refine .inr ⟨fromSecs c,rfl,?_⟩
    change c * 1000000000 < val * nanos
    omega

theorem unitDuration_exact (h : unitNanos u = some nanos) (hfit : val * nanos < 2 ^ 64 * 1000000000) :
    unitDuration overflowChecks val u = .ok (some (val * nanos)) := by
  unfold unitNanos at h
  split at h <;> cases h
  · exact scaled_exact rfl hfit
  · exact scaled_exact rfl hfit
  · rfl
  · rfl
  · rfl
  · rw [Nat.mul_one]
    rfl

/-- Past the range of the multiplication the call panics or the duration shrinks. -/
theorem unitDuration_overflow (overflowChecks : Bool) (h : unitNanos u = some nanos) (hval : val < 2 ^ 64)
    (hbig : 2 ^ 64 * 1000000000 ≤ val * nanos) :
    unitDuration overflowChecks val u = .error .multiplyOverflow ∨
      ∃ d, unitDuration overflowChecks val u = .ok (some d) ∧ d < val * nanos := by
  unfold unitNanos at h
  split at h <;> cases h
  · exact scaled_overflow overflowChecks rfl hbig
  · exact scaled_overflow overflowChecks rfl hbig
  all_goals omega

theorem parse_written (overflowChecks : Bool) (h : Written s plus ds nanos) : ∃ u, unitNanos u = some nanos ∧
    parseGrpcTimeout overflowChecks s = (match checked (2 ^ 64) (decimalValue ds) with
      | none => .ok none
      | some val => unitDuration overflowChecks val u) := by
  obtain ⟨u,hs,hne,hd,hu⟩ := h
  refine ⟨u,hu,?_⟩
  unfold parseGrpcTimeout
  rw [hs,List.getLast?_append_of_ne_nil _ (List.cons_ne_nil u []),List.getLast?_singleton,
    List.dropLast_concat,readUnsigned_signed plus hne hd (by omega)]
  exact if_pos (utf8Size_unit hu)

theorem parse_fits (overflowChecks : Bool) (h : Written s plus ds nanos)
    (hfit : decimalValue ds * nanos < 2 ^ 64 * 1000000000) (hval : decimalValue ds < 2 ^ 64) :
    parseGrpcTimeout overflowChecks s = .ok (some (decimalValue ds * nanos)) := by
  obtain ⟨u,hu,hparse⟩ := parse_written overflowChecks h
  rw [hparse,checked_of_lt hval]
  exact unitDuration_exact hu hfit

/-- Everything but a number with a unit is refused, a number too long included. -/
theorem parse_refused (hs : ∀ c ∈ s.toList, isVisibleAscii c = true)
    (h : ∀ plus ds nanos, Written s plus ds nanos → 2 ^ 64 ≤ decimalValue ds) :
    parseGrpcTimeout overflowChecks s = .ok none := by
  unfold parseGrpcTimeout
  rcases List.eq_nil_or_concat s.toList with hnil | ⟨front,u,hfront⟩
  · rw [hnil]
    rfl
  · rw [List.concat_eq_append] at hfront
    have hvisible : isVisibleAscii u = true := hs u (by rw [hfront]; simp)
    rw [hfront,List.getLast?_append_of_ne_nil _ (List.cons_ne_nil u []),List.getLast?_singleton,
      List.dropLast_concat]
    refine (if_pos (utf8Size_visible hvisible)).trans ?_
    cases hread : readUnsigned (2 ^ 64) front with
    | none => rfl
    | some val =>
      cases hu : unitNanos u with
      | none => exact unitDuration_none hu
      | some nanos =>
        obtain ⟨plus,ds,hsigned,hne,hd⟩ := readUnsigned_eq_some hread
        have hbig := h plus ds nanos ⟨u,by rw [hfront,hsigned],hne,hd,hu⟩
        rw [hsigned,readUnsigned_signed plus hne hd (by omega),checked_of_le hbig] at hread
        cases hread

/-- A header in the grammar is far from any overflow. -/
theorem Grammar.fits (h : Grammar s val) : ∃ ds nanos, Written s false ds nanos ∧ ds.length ≤ 8 ∧
    decimalValue ds < 10 ^ 8 ∧ val = decimalValue ds * nanos := by
  obtain ⟨ds,nanos,hw,hlen,hval⟩ := h
  have hd : Digits ds := hw.choose_spec.2.2.1
  exact ⟨ds,nanos,hw,hlen,(decimalValue_lt hd).trans_le (Nat.pow_le_pow_right (by omega) hlen),hval⟩

theorem unitNanos_le (h : unitNanos u = some nanos) : nanos ≤ 3600000000000 := by
  unfold unitNanos at h
  split at h <;> cases h <;> omega

def MeetsGrammar (overflowChecks : Bool) (s : String) : Prop :=
  (∀ d, parseGrpcTimeout overflowChecks s = .ok (some d) ↔ Grammar s d) ∧
    ((¬ ∃ d, Grammar s d) → parseGrpcTimeout overflowChecks s = .ok none)

/-- A number that the integer parser takes and the grammar does not. -/
def Excess (s : String) : Prop :=
  ∃ plus ds nanos, Written s plus ds nanos ∧ decimalValue ds < 2 ^ 64 ∧ (plus = true ∨ 8 < ds.length)

theorem Excess.not_grammar (h : Excess s) (d : Duration) : ¬ Grammar s d := by
  rintro ⟨ds',nanos',hw',hlen,-⟩
  obtain ⟨plus,ds,nanos,hw,-,hex⟩ := h
  obtain ⟨hplus,hds,-⟩ := hw.unique hw'
  rcases hex with hex | hex
  · cases hplus.symm.trans hex
  · rw [hds] at hex
    omega

theorem Excess.parse_ne (overflowChecks : Bool) (h : Excess s) :
    parseGrpcTimeout overflowChecks s ≠ .ok none := by
  obtain ⟨plus,ds,nanos,hw,hval,-⟩ := h
  intro hnone
  by_cases hfit : decimalValue ds * nanos < 2 ^ 64 * 1000000000
  · cases (parse_fits overflowChecks hw hfit hval).symm.trans hnone
  · obtain ⟨u,hu,hparse⟩ := parse_written overflowChecks hw
    rw [hparse,checked_of_lt hval] at hnone
    rcases unitDuration_overflow overflowChecks hu hval (by omega) with he | ⟨d,hd,-⟩
    · cases he.symm.trans hnone
    · cases hd.symm.trans hnone

/-- The parser meets the grammar on exactly the strings that are no number with a
plus sign or with more than eight digits. -/
theorem parse_meets_grammar_iff (overflowChecks : Bool) (s : String)
    (hs : ∀ c ∈ s.toList, isVisibleAscii c = true) : MeetsGrammar overflowChecks s ↔ ¬ Excess s := by
  constructor
  · intro hmeets hex
    exact hex.parse_ne overflowChecks (hmeets.2 fun ⟨d,hd⟩ => hex.not_grammar d hd)
  · intro hex
    by_cases hg : ∃ d, Grammar s d
    · obtain ⟨d,hd⟩ := hg
      obtain ⟨ds,nanos,hw,hlen,hlt,rfl⟩ := hd.fits
      have hnanos := unitNanos_le hw.choose_spec.2.2.2
      have hprod : decimalValue ds * nanos ≤ 10 ^ 8 * 3600000000000 := Nat.mul_le_mul hlt.le hnanos
      have hparse := parse_fits overflowChecks hw (by omega) (by omega)
      refine ⟨fun d' => ⟨fun h => ?_,fun h => ?_⟩,fun hno => (hno ⟨_,hd⟩).elim⟩
      · cases hparse.symm.trans h
        exact hd
      · obtain ⟨ds',nanos',hw',-,rfl⟩ := h
        obtain ⟨-,rfl,rfl⟩ := hw.unique hw'
        exact hparse
    · have hnone : parseGrpcTimeout overflowChecks s = .ok none := by
        refine parse_refused hs fun plus ds nanos hw => ?_
        by_contra hval
        have hplain : ¬ (plus = true ∨ 8 < ds.length) := fun h => hex ⟨plus,ds,nanos,hw,by omega,h⟩
        obtain ⟨hplus,hlen⟩ := not_or.mp hplain
        cases Bool.eq_false_iff.mpr hplus
        exact hg ⟨_,ds,nanos,hw,by omega,rfl⟩
      refine ⟨fun d => ⟨fun h => ?_,fun h => (hg ⟨d,h⟩).elim⟩,fun _ => hnone⟩
      cases hnone.symm.trans h

theorem plus_written : Written "+5S" true ['5'] 1000000000 :=
  ⟨'S',rfl,List.cons_ne_nil _ _,by simp [Digits],rfl⟩

theorem plus_excess : Excess "+5S" := ⟨true,['5'],1000000000,plus_written,by decide,.inl rfl⟩

theorem plus_visible : ∀ c ∈ "+5S".toList, isVisibleAscii c = true := List.all_eq_true.mp rfl

theorem plain_visible : ∀ c ∈ "5S".toList, isVisibleAscii c = true := List.all_eq_true.mp rfl

theorem parse_leaves_grammar : ¬ ∀ (overflowChecks : Bool) (s : String),
    (∀ c ∈ s.toList, isVisibleAscii c = true) → MeetsGrammar overflowChecks s := by
  intro h
  have hmeets := h true "+5S" plus_visible
  exact plus_excess.not_grammar 5000000000 ((hmeets.1 _).mp rfl)

theorem parse_meets_grammar_iff_plus : ¬ MeetsGrammar false "+5S" ∧ MeetsGrammar false "5S" := by
  refine ⟨fun h => (parse_meets_grammar_iff false "+5S" plus_visible).mp h plus_excess,?_⟩
  refine (parse_meets_grammar_iff false "5S" plain_visible).mpr ?_
  have hw : Written "5S" false ['5'] 1000000000 :=
    ⟨'S',rfl,List.cons_ne_nil _ _,by simp [Digits],rfl⟩
  rintro ⟨plus,ds,nanos,hw',-,hex⟩
  obtain ⟨rfl,rfl,-⟩ := hw.unique hw'
  rcases hex with hex | hex
  · cases hex
  · simp at hex

def Denotes (headers : HeaderMap) (val nanos : ℕ) : Prop :=
  ∃ v s plus ds, headers.get "grpc-timeout" = some v ∧ toStr v = some s ∧
    Written s plus ds nanos ∧ val = decimalValue ds

def ExactDeadline (overflowChecks : Bool) (now : ℕ) (headers : HeaderMap) : Prop :=
  deadline overflowChecks now headers = .ok none ∨ ∃ val nanos, Denotes headers val nanos ∧
    deadline overflowChecks now headers = .ok (some (now + val * nanos))

def InRange (now : ℕ) (headers : HeaderMap) : Prop :=
  ∀ val nanos, Denotes headers val nanos → val < 2 ^ 64 → now + val * nanos < 2 ^ 63 * 1000000000

theorem toStr_eq_some {v : String} (h : toStr v = some s) :
    s = v ∧ ∀ c ∈ s.toList, isVisibleAscii c = true := by
  unfold toStr at h
  split at h
  · rename_i hall
    cases h
    exact ⟨rfl,List.all_eq_true.mp hall⟩
  · cases h

theorem Denotes.unique (h : Denotes headers val nanos) {val' : ℕ} (h' : Denotes headers val' nanos') :
    val = val' ∧ nanos = nanos' := by
  obtain ⟨v,s,plus,ds,hv,hs,hw,rfl⟩ := h
  obtain ⟨v',s',plus',ds',hv',hs',hw',rfl⟩ := h'
  cases hv.symm.trans hv'
  cases hs.symm.trans hs'
  obtain ⟨-,rfl,hn⟩ := hw.unique hw'
  exact ⟨rfl,hn⟩

theorem instantAdd_eq {d : Duration} (h : now + d < 2 ^ 63 * 1000000000) :
    instantAdd now d = .ok (now + d) := if_pos (Nat.div_lt_of_lt_mul (by rwa [Nat.mul_comm]))

theorem instantAdd_panics {d : Duration} (h : 2 ^ 63 * 1000000000 ≤ now + d) :
    instantAdd now d = .error .instantOverflow :=
  if_neg (not_lt.mpr ((Nat.le_div_iff_mul_le (by omega)).mpr h))

theorem deadline_denotes (overflowChecks : Bool) (now : ℕ) (h : Denotes headers val nanos)
    (hval : val < 2 ^ 64) : ∃ u, unitNanos u = some nanos ∧ deadline overflowChecks now headers =
      (unitDuration overflowChecks val u).bind fun
        | none => .ok none
        | some d => (instantAdd now d).map some := by
  obtain ⟨v,s,plus,ds,hv,hs,hw,rfl⟩ := h
  obtain ⟨u,hu,hparse⟩ := parse_written overflowChecks hw
  refine ⟨u,hu,?_⟩
  unfold deadline
  simp only [hv,hs,hparse,checked_of_lt hval]

theorem deadline_none (h : ∀ val nanos, Denotes headers val nanos → 2 ^ 64 ≤ val) :
    deadline overflowChecks now headers = .ok none := by
  unfold deadline
  cases hv : headers.get "grpc-timeout" with
  | none => rfl
  | some v =>
    cases hs : toStr v with
    | none => simp only [hs]
    | some s =>
      have hparse : parseGrpcTimeout overflowChecks s = .ok none :=
        parse_refused (toStr_eq_some hs).2 fun plus ds nanos hw =>
          h _ nanos ⟨v,s,plus,ds,hv,hs,hw,rfl⟩
      simp only [hs,hparse]
      rfl

/-- The deadline computation neither panics nor wraps exactly on the headers whose
instant is in range. -/
theorem deadline_exact_iff (overflowChecks : Bool) (now : ℕ) (headers : HeaderMap) :
    ExactDeadline overflowChecks now headers ↔ InRange now headers := by
  constructor
  · intro hexact val nanos hden hval
    by_contra hrange
    obtain ⟨u,hu,hdeadline⟩ := deadline_denotes overflowChecks now hden hval
    have hres : deadline overflowChecks now headers = .ok none ∨
        deadline overflowChecks now headers = .ok (some (now + val * nanos)) := by
      refine hexact.imp_right fun ⟨val',nanos',hden',hd⟩ => ?_
      obtain ⟨rfl,rfl⟩ := hden.unique hden'
      exact hd
    by_cases hfit : val * nanos < 2 ^ 64 * 1000000000
    · rw [hdeadline,unitDuration_exact hu hfit] at hres
      change (instantAdd now (val * nanos)).map some = _ ∨ (instantAdd now (val * nanos)).map some = _ at hres
      rw [instantAdd_panics (by omega)] at hres
      rcases hres with hres | hres <;> cases hres
    · rcases unitDuration_overflow overflowChecks hu hval (by omega) with he | ⟨d,hd,hlt⟩
      · rw [hdeadline,he] at hres
        rcases hres with hres | hres <;> cases hres
      · rw [hdeadline,hd] at hres
        change (instantAdd now d).map some = _ ∨ (instantAdd now d).map some = _ at hres
        unfold instantAdd at hres
        split at hres
        · rcases hres with hres | hres
          · cases hres
          · have hsum : now + d = now + val * nanos := Option.some.inj (Except.ok.inj hres)
            omega
        · rcases hres with hres | hres <;> cases hres
  · intro hrange
    by_cases hden : ∃ val nanos, Denotes headers val nanos ∧ val < 2 ^ 64
    · obtain ⟨val,nanos,hden,hval⟩ := hden
      have hlt := hrange val nanos hden hval
      obtain ⟨u,hu,hdeadline⟩ := deadline_denotes overflowChecks now hden hval
      refine .inr ⟨val,nanos,hden,?_⟩
      rw [hdeadline,unitDuration_exact hu (by omega)]
      change (instantAdd now (val * nanos)).map some = _
      rw [instantAdd_eq hlt]
      rfl
    · refine .inl (deadline_none fun val nanos h => ?_)
      by_contra hval
      exact hden ⟨val,nanos,h,by omega⟩

/-- Hours whose seconds exceed 64 bits by 3584. -/
def longTimeout : HeaderMap := [("grpc-timeout","5124095576030432H")]

theorem longTimeout_wraps : deadline true 0 longTimeout = .error .multiplyOverflow ∧
    deadline false 0 longTimeout = .ok (some (fromSecs 3584)) := by
  constructor <;> decide +kernel

theorem deadline_overflows : ¬ ∀ (overflowChecks : Bool) (now : ℕ) (headers : HeaderMap),
    ExactDeadline overflowChecks now headers := by
  intro h
  rcases h true 0 longTimeout with hd | ⟨val,nanos,-,hd⟩
  · cases longTimeout_wraps.1.symm.trans hd
  · cases longTimeout_wraps.1.symm.trans hd

end GrpcQuic.Timeout

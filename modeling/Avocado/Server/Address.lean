/-
# Addresses on the command line (`server.cpp`)

A server is started with its own address, `-u host:port`, and with those of the others,
`-a host:port:threads`.  Two things are read out of these texts.  Thread `i` connects to thread
`i % threads` of every other server, which takes the number behind the last colon; and the machine
id of a server is the number behind the last dot of its own host.

One function reads both, `get_id_from_addr`, and it is written for the second: it looks for a dot
in front of the first colon.  `get_n_threads_from_svr_info` calls it with the text of an `-a`, so
the thread count of a server is the last number of its address (`connects_iff`), and zero, by which
`server_thread` divides, when the server is given by its name.  As a machine id the number is
what the address says about the host, so two hosts need not differ in it (`identified_iff`).
-/
import Avocado.Abd.ReplicaGroups
import Avocado.Lamport
import Avocado.Lib.Text
import Mathlib.Data.Int.ModEq

namespace Avocado

open Text

/-! ## 1. The code -/

/-- `get_uri_from_server_info`. -/
def getUriFromServerInfo (svrInfo : List Char) : List Char :=
  prefixTo svrInfo (rfind svrInfo ':' none)

/-- `get_id_from_addr`: `atoll(uri.c_str() + uri.rfind('.', uri.find(':')) + 1)`, as a `size_t`. -/
def getIdFromAddr (uri : List Char) : BitVec 64 :=
  BitVec.ofInt 64 (atoll (uri.drop (next (rfind uri '.' (find uri ':')))))

/-- `get_n_threads_from_svr_info`. -/
def getNThreadsFromSvrInfo (svrInfo : List Char) : BitVec 64 := getIdFromAddr svrInfo

/-- `struct Replica_info`. -/
structure ReplicaInfo where
  sessionId : BitVec 32
  baseId : BitVec 64
  uri : List Char
  deriving DecidableEq, Repr

/-- What `server_thread` makes of an entry of `args.replica_info`.  There is no result when it
divides by zero. -/
def replicaInfo (localId : BitVec 64) (rInfo : List Char) : Option ReplicaInfo :=
  if getNThreadsFromSvrInfo rInfo = 0 then none
  else some ⟨0, localId % getNThreadsFromSvrInfo rInfo, getUriFromServerInfo rInfo⟩

/-- The machine id: `main` reads it out of `args.uri`, as a `size_t`, and the constructor of `ABD`
takes it as a `Lamport::M_id_t`. -/
def mIdOf (uri : List Char) : BitVec 32 := (getIdFromAddr uri).setWidth 32

/-! ## 2. What is read out of a text -/

section Texts

variable {host : List Char}

/-- **The number that is read** is the one at the front of the host's last label, whatever is behind
the colon. -/
theorem getIdFromAddr_append (h : ':' ∉ host) (rest : List Char) :
    getIdFromAddr (host ++ ':' :: rest) = BitVec.ofInt 64 (atoll (afterLast '.' host)) := by
  have htake : (host ++ ':' :: rest).take (host.length + 1) = host ++ [':'] := by
    rw [List.append_cons, List.take_left' (by simp)]
  have hdot : rfind (host ++ ':' :: rest) '.' (find (host ++ ':' :: rest) ':') =
      lastIdx '.' host := by
    rw [find_append h, rfind, htake, lastIdx_append_right (by decide)]
  rw [getIdFromAddr, hdot, List.drop_append_of_le_length (next_lastIdx_le '.' host),
    drop_next_lastIdx, atoll_append (by decide) (by decide) (by decide) (by decide)]

theorem getUriFromServerInfo_append {threads : List Char} (h : ':' ∉ threads) (uri : List Char) :
    getUriFromServerInfo (uri ++ ':' :: threads) = uri := by
  rw [getUriFromServerInfo, rfind, lastIdx_append h, prefixTo, List.take_left]

end Texts

/-! ## 3. The threads of another server -/

/-- A server as `-a` names it: `ip_addrs:port:threads`, with a number of threads, which is not
zero. -/
structure ReplicaArg extends Member where
  threads_digits : ∀ c ∈ threads, c.isDigit
  threads_pos : 1 ≤ decimal threads
  deriving DecidableEq

namespace ReplicaArg

/-- The number of its threads. -/
def nThreads (x : ReplicaArg) : Nat := decimal x.threads

theorem threads_colon (x : ReplicaArg) : ':' ∉ x.threads := by
  intro h
  exact absurd (x.threads_digits ':' h) (by decide)

/-- **Every thread connects to a thread of the other server.** -/
def Connects (x : ReplicaArg) : Prop :=
  ∀ localId : BitVec 64, ∃ info, replicaInfo localId x.info = some info ∧ info.uri = x.uri ∧
    info.baseId.toNat = localId.toNat % x.nThreads ∧ info.baseId.toNat < x.nThreads

/-- What `server_thread` divides by. -/
theorem getNThreadsFromSvrInfo_info (x : ReplicaArg) :
    getNThreadsFromSvrInfo x.info = BitVec.ofInt 64 (atoll (afterLast '.' x.ip)) := by
  have happ : x.info = x.ip ++ ':' :: (x.port ++ ':' :: x.threads) := by
    simp [Member.info, Member.uri]
  rw [happ]
  exact getIdFromAddr_append x.ip_colon _

/-- The other half of the text is read as it should be. -/
theorem getUriFromServerInfo_info (x : ReplicaArg) : getUriFromServerInfo x.info = x.uri :=
  getUriFromServerInfo_append x.threads_colon x.uri

/-- Numbers with the same remainders are equal: each is smaller than the bound or the other is. -/
theorem eq_of_mod_eq_mod {m n bound : Nat} (hm : 0 < m) (hlt : m < bound) (hn : 0 < n)
    (h : ∀ l < bound, l % m = l % n) : m = n := by
  rcases Nat.lt_trichotomy m n with hmn | rfl | hnm
  · have hself := h m hlt
    rw [Nat.mod_self, Nat.mod_eq_of_lt hmn] at hself
    omega
  · rfl
  · have hself := h n (by omega)
    rw [Nat.mod_self, Nat.mod_eq_of_lt hnm] at hself
    omega

/-- **Threads connect to existing threads** exactly if the last number of the address happens to be
the thread count. -/
theorem connects_iff (x : ReplicaArg) :
    x.Connects ↔ (BitVec.ofInt 64 (atoll (afterLast '.' x.ip))).toNat = x.nThreads := by
  have hpos : 0 < x.nThreads := x.threads_pos
  rw [← getNThreadsFromSvrInfo_info]
  constructor
  · intro h
    have hne : getNThreadsFromSvrInfo x.info ≠ 0 := by
      intro hzero
      obtain ⟨info, hsome, -⟩ := h 0
      rw [replicaInfo, if_pos hzero] at hsome
      exact absurd hsome (by simp)
    refine eq_of_mod_eq_mod ?_ (getNThreadsFromSvrInfo x.info).isLt hpos fun l hl => ?_
    · exact Nat.pos_of_ne_zero fun hzero => hne (BitVec.eq_of_toNat_eq (by simpa using hzero))
    · obtain ⟨info, hsome, -, hbase, -⟩ := h (BitVec.ofNat 64 l)
      rw [replicaInfo, if_neg hne, Option.some.injEq] at hsome
      rw [← hsome, BitVec.toNat_umod, BitVec.toNat_ofNat, Nat.mod_eq_of_lt hl] at hbase
      exact hbase
  · intro h localId
    have hne : getNThreadsFromSvrInfo x.info ≠ 0 := by
      intro hzero
      rw [hzero] at h
      exact absurd h hpos.ne
    refine ⟨_, if_neg hne, getUriFromServerInfo_info x, ?_, ?_⟩
    · rw [BitVec.toNat_umod, h]
    · rw [BitVec.toNat_umod, h]
      exact Nat.mod_lt _ hpos

/-- `rose` of `generate_config.py`, with eight threads. -/
def rose : ReplicaArg where
  ip := ['1', '2', '9', '.', '2', '1', '5', '.', '1', '6', '5', '.', '5', '2']
  port := ['3', '1', '8', '5', '0']
  threads := ['8']
  ip_colon := by decide
  port_digits := by simp
  threads_digits := by simp
  threads_pos := by decide

/-- The same server by its name. -/
def roseByName : ReplicaArg where
  ip := ['r', 'o', 's', 'e']
  port := ['3', '1', '8', '5', '0']
  threads := ['8']
  ip_colon := by decide
  port_digits := by simp
  threads_digits := by simp
  threads_pos := by decide

/-- **Thread 8 wants thread 8 of eight**: 52 is taken for the number of threads.  With the name
instead of the address the remainder is by zero. -/
theorem rose_not_connects :
    replicaInfo 8 rose.info = some ⟨0, 8, rose.uri⟩ ∧ ¬ rose.Connects ∧
      replicaInfo 8 roseByName.info = none ∧ ¬ roseByName.Connects := by
  have haddr : replicaInfo 8 rose.info = some ⟨0, 8, rose.uri⟩ := by decide +kernel
  have hname : replicaInfo 8 roseByName.info = none := by decide +kernel
  refine ⟨haddr, fun h => ?_, hname, fun h => ?_⟩
  · obtain ⟨info, hsome, -, -, hlt⟩ := h 8
    rw [haddr, Option.some.injEq] at hsome
    rw [← hsome] at hlt
    exact absurd hlt (by decide)
  · obtain ⟨info, hsome, -⟩ := h 8
    rw [hname] at hsome
    exact absurd hsome (by simp)

end ReplicaArg

/-! ## 4. Machine ids -/

/-- The argument of `-u`: `ip:port` or `host:port`. -/
structure Uri where
  host : List Char
  port : List Char
  host_colon : ':' ∉ host

namespace Uri

/-- The text on the command line. -/
def text (x : Uri) : List Char := x.host ++ ':' :: x.port

/-- **Machine ids tell servers apart**, and then no clock of one compares equal to one of the
other. -/
def Identified (x y : Uri) : Prop :=
  mIdOf x.text ≠ mIdOf y.text ∧
    ∀ a b : BitVec 32, (Lamport.mk a (mIdOf x.text)).toInt ≠ (Lamport.mk b (mIdOf y.text)).toInt

theorem mIdOf_text (x : Uri) :
    mIdOf x.text = BitVec.ofInt 32 (atoll (afterLast '.' x.host)) := by
  rw [mIdOf, text, getIdFromAddr_append x.host_colon]
  refine BitVec.eq_of_toNat_eq ?_
  rw [BitVec.toNat_setWidth, BitVec.toNat_ofInt, BitVec.toNat_ofInt]
  omega

theorem ofInt_eq_ofInt_iff (i j : Int) :
    BitVec.ofInt 32 i = BitVec.ofInt 32 j ↔ i ≡ j [ZMOD 2 ^ 32] := by
  rw [← BitVec.toNat_inj, BitVec.toNat_ofInt, BitVec.toNat_ofInt, Int.ModEq]
  omega

/-- **Two servers have different machine ids** exactly if the last labels of their hosts begin with
different numbers, modulo 2^32. -/
theorem identified_iff (x y : Uri) : Identified x y ↔
    ¬ atoll (afterLast '.' x.host) ≡ atoll (afterLast '.' y.host) [ZMOD 2 ^ 32] := by
  rw [Identified, mIdOf_text, mIdOf_text, Ne, ofInt_eq_ofInt_iff]
  refine ⟨And.left, fun h => ⟨h, fun a b hclock => h ?_⟩⟩
  have hinj := Lamport.toInt_toNat_injective (congrArg BitVec.toNat hclock)
  exact (ofInt_eq_ofInt_iff _ _).mp (Lamport.mk.inj hinj).2

/-- Two servers of two subnets. -/
def left : Uri := ⟨['1', '0', '.', '0', '.', '0', '.', '1'], ['8', '0'], by decide⟩

def right : Uri := ⟨['1', '0', '.', '0', '.', '1', '.', '1'], ['8', '0'], by decide⟩

/-- **The third number of the address does not count.** -/
theorem left_right_not_identified : left.text ≠ right.text ∧ mIdOf left.text = 1 ∧
    mIdOf right.text = 1 ∧ ¬ Identified left right := by
  have hleft : mIdOf left.text = 1 := by decide +kernel
  have hright : mIdOf right.text = 1 := by decide +kernel
  exact ⟨by decide, hleft, hright, fun h => h.1 (hleft.trans hright.symm)⟩

end Uri

end Avocado

import Mathlib.Data.List.Basic
import MiniWaf.Plugins.IpLists
import MiniWaf.Std.Net
import MiniWaf.Std.Words

/-! The address lists behind the IP list plugin. Host routes go into a hash set and
other networks into a list; together they hold what a plain list of the entries holds.
-/

set_option autoImplicit false

namespace MiniWaf.Lists

/-- A network of the `ipnet` crate: an address, perhaps with host bits, and a prefix length. -/
structure IpNet where
  addr : IpAddr
  prefixLen : Nat
  deriving DecidableEq, Repr

structure IpNetCrate where
  fromStr : String → Option IpNet
  contains : IpNet → IpAddr → Bool

def maxPrefix : IpAddr → Nat
  | .v4 _ => 32
  | .v6 _ => 128

/-- A network of full length contains its address and no other. -/
def IpNetCrate.HostRoutes (crate : IpNetCrate) : Prop :=
  ∀ addr a, crate.contains ⟨addr, maxPrefix addr⟩ a = true ↔ a = addr

variable (crate : IpNetCrate)

structure IpSet where
  exact : List IpAddr
  cidrs : List IpNet

namespace IpSet

def empty : IpSet := ⟨[], []⟩

/-- The network an entry stands for; a bare address is a host route. -/
def network (entry : String) : Option IpNet :=
  match crate.fromStr entry with
  | some n => some n
  | none => (IpAddr.parse entry.toList).map fun addr => ⟨addr, maxPrefix addr⟩

def insert (set : IpSet) (entry : String) : IpSet :=
  match network crate entry with
  | none => set
  | some net =>
    if net.prefixLen = maxPrefix net.addr then { set with exact := set.exact.insert net.addr }
    else { set with cidrs := set.cidrs ++ [net] }

def contains (set : IpSet) (addr : IpAddr) : Bool :=
  decide (addr ∈ set.exact) || set.cidrs.any fun net => crate.contains net addr

end IpSet

structure Store where
  blacklist : IpSet
  whitelist : IpSet

namespace Store

def new : Store := ⟨.empty, .empty⟩

def addToBlacklist (store : Store) (entry : String) : Store := { store with blacklist := store.blacklist.insert crate entry }

def addToWhitelist (store : Store) (entry : String) : Store := { store with whitelist := store.whitelist.insert crate entry }

/-- The entries of a file: its lines without blanks around them, blank lines and comments left out. -/
def fileEntries (content : String) : List String :=
  ((Text.lines content.toList).map Text.trim).filterMap fun entry =>
    if entry.isEmpty || ['#'].isPrefixOf entry then none else some (String.ofList entry)

def loadBlacklist (store : Store) (content : String) : Store := (fileEntries content).foldl (addToBlacklist crate) store

def loadWhitelist (store : Store) (content : String) : Store := (fileEntries content).foldl (addToWhitelist crate) store

def isWhitelisted (store : Store) (ip : String) : Bool :=
  match IpAddr.parse ip.toList with
  | none => false
  | some addr => store.whitelist.contains crate addr

def isBlacklisted (store : Store) (ip : String) : Bool :=
  match IpAddr.parse ip.toList with
  | none => false
  | some addr => if store.whitelist.contains crate addr then false else store.blacklist.contains crate addr

def lookups (store : Store) : IpListStore where
  blacklist ip := ((IpAddr.parse ip.toList).map (store.blacklist.contains crate)).getD false
  whitelist ip := ((IpAddr.parse ip.toList).map (store.whitelist.contains crate)).getD false

theorem lookups_eq (store : Store) (ip : String) :
    (store.lookups crate).isWhitelisted ip = store.isWhitelisted crate ip ∧
      (store.lookups crate).isBlacklisted ip = store.isBlacklisted crate ip := by
  cases parsed : IpAddr.parse ip.toList with
  | none => simp [IpListStore.isWhitelisted, IpListStore.isBlacklisted, lookups, isWhitelisted, isBlacklisted, parsed]
  | some addr =>
    constructor
    · simp [IpListStore.isWhitelisted, lookups, isWhitelisted, parsed]
    · cases white : store.whitelist.contains crate addr <;>
        simp [IpListStore.isBlacklisted, lookups, isBlacklisted, parsed, white]

end Store

/-- The entry parses as a network, or else as an address, and contains the address. -/
def EntryContains (entry : String) (a : IpAddr) : Prop :=
  (∃ net, crate.fromStr entry = some net ∧ crate.contains net a = true) ∨
    (crate.fromStr entry = none ∧ IpAddr.parse entry.toList = some a)

variable {crate}

theorem entryContains_iff (hosts : crate.HostRoutes) (entry : String) (a : IpAddr) :
    EntryContains crate entry a ↔ ∃ net, IpSet.network crate entry = some net ∧ crate.contains net a = true := by
  unfold EntryContains IpSet.network
  cases crate.fromStr entry with
  | some net => simp
  | none =>
    cases IpAddr.parse entry.toList with
    | none => simp
    | some addr =>
      simp only [reduceCtorEq, false_and, exists_false, false_or, true_and, Option.map_some, Option.some.injEq,
        exists_eq_left', hosts addr a]
      exact eq_comm

theorem contains_insert (hosts : crate.HostRoutes) (set : IpSet) (entry : String) (a : IpAddr) :
    (set.insert crate entry).contains crate a = true ↔ set.contains crate a = true ∨ EntryContains crate entry a := by
  rw [entryContains_iff hosts, IpSet.insert]
  cases network : IpSet.network crate entry with
  | none => simp
  | some net =>
    by_cases full : net.prefixLen = maxPrefix net.addr
    · have route : crate.contains net a = true ↔ a = net.addr := by
        have shape : net = ⟨net.addr, maxPrefix net.addr⟩ := by rw [← full]
        rw [shape]
        exact hosts net.addr a
      simp only [if_pos full, IpSet.contains, Bool.or_eq_true, decide_eq_true_eq, List.mem_insert_iff, Option.some.injEq,
        exists_eq_left', route]
      tauto
    · simp only [if_neg full, IpSet.contains, Bool.or_eq_true, List.any_append, List.any_cons, List.any_nil,
        Bool.or_false, Option.some.injEq, exists_eq_left']
      tauto

inductive Call where
  | addToBlacklist (entry : String)
  | addToWhitelist (entry : String)
  deriving DecidableEq, Repr

variable (crate) in
def Call.apply (store : Store) : Call → Store
  | .addToBlacklist entry => store.addToBlacklist crate entry
  | .addToWhitelist entry => store.addToWhitelist crate entry

variable (crate) in
def run (calls : List Call) : Store := calls.foldl (Call.apply crate) .new

/-- The two lists hold what the entries given to them contain. -/
theorem contains_run (hosts : crate.HostRoutes) (calls : List Call) (a : IpAddr) :
    ((run crate calls).blacklist.contains crate a = true ↔
        ∃ entry, .addToBlacklist entry ∈ calls ∧ EntryContains crate entry a) ∧
      ((run crate calls).whitelist.contains crate a = true ↔
        ∃ entry, .addToWhitelist entry ∈ calls ∧ EntryContains crate entry a) := by
  induction calls using List.reverseRecOn with
  | nil => simp [run, Store.new, IpSet.empty, IpSet.contains]
  | append_singleton calls call ih =>
    have last : run crate (calls ++ [call]) = call.apply crate (run crate calls) := by
      simp [run, List.foldl_append]
    rw [last]
    cases call with
    | addToBlacklist entry =>
      simp only [Call.apply, Store.addToBlacklist, contains_insert hosts, ih, List.mem_append, List.mem_singleton,
        Call.addToBlacklist.injEq, reduceCtorEq, or_false, or_and_right, exists_or, exists_eq_left, and_self]
    | addToWhitelist entry =>
      simp only [Call.apply, Store.addToWhitelist, contains_insert hosts, ih, List.mem_append, List.mem_singleton,
        Call.addToWhitelist.injEq, reduceCtorEq, or_false, or_and_right, exists_or, exists_eq_left, and_self]

/-- After any calls the store answers as the plain lists of the entries do. -/
theorem hybrid_refines (crate : IpNetCrate) (hosts : crate.HostRoutes) (calls : List Call) (ip : String) :
    ((run crate calls).isWhitelisted crate ip = true ↔
        ∃ a, IpAddr.parse ip.toList = some a ∧ ∃ entry, .addToWhitelist entry ∈ calls ∧ EntryContains crate entry a) ∧
      ((run crate calls).isBlacklisted crate ip = true ↔
        ∃ a, IpAddr.parse ip.toList = some a ∧ (∃ entry, .addToBlacklist entry ∈ calls ∧ EntryContains crate entry a) ∧
          ¬ ∃ entry, .addToWhitelist entry ∈ calls ∧ EntryContains crate entry a) := by
  unfold Store.isWhitelisted Store.isBlacklisted
  cases IpAddr.parse ip.toList with
  | none => simp
  | some a =>
    obtain ⟨black, white⟩ := contains_run hosts calls a
    simp only [Option.some.injEq, exists_eq_left', ← black, ← white, true_and]
    cases (run crate calls).whitelist.contains crate a <;> simp

def documentedCrate : IpNetCrate where
  fromStr entry := do
    let (addr, digits) ← Text.splitOnce '/' entry.toList
    let net ← IpAddr.parse addr
    let n ← Text.parseNat digits
    if n ≤ maxPrefix net then some ⟨net, n⟩ else none
  contains net a :=
    match net.addr, a with
    | .v4 x, .v4 y => x >>> (32 - net.prefixLen) == y >>> (32 - net.prefixLen)
    | .v6 x, .v6 y => x >>> (128 - net.prefixLen) == y >>> (128 - net.prefixLen)
    | _, _ => false

theorem documentedCrate_hosts : documentedCrate.HostRoutes := by
  intro addr a
  cases addr with
  | v4 x =>
    cases a with
    | v4 y =>
      simp only [documentedCrate, maxPrefix, Nat.sub_self, BitVec.ushiftRight_zero, beq_iff_eq, IpAddr.v4.injEq]
      exact eq_comm
    | v6 y => simp [documentedCrate]
  | v6 x =>
    cases a with
    | v4 y => simp [documentedCrate]
    | v6 y =>
      simp only [documentedCrate, maxPrefix, Nat.sub_self, BitVec.ushiftRight_zero, beq_iff_eq, IpAddr.v6.injEq]
      exact eq_comm

def mixedCalls : List Call := [.addToBlacklist "10.0.0.7/8", .addToWhitelist "10.1.2.3", .addToBlacklist "10/8"]

theorem hybrid_refines_mixed :
    ((run documentedCrate mixedCalls).isWhitelisted documentedCrate "10.1.2.3" = true ↔
        ∃ a, IpAddr.parse "10.1.2.3".toList = some a ∧
          ∃ entry, .addToWhitelist entry ∈ mixedCalls ∧ EntryContains documentedCrate entry a) ∧
      ((run documentedCrate mixedCalls).isBlacklisted documentedCrate "10.1.2.3" = true ↔
        ∃ a, IpAddr.parse "10.1.2.3".toList = some a ∧
          (∃ entry, .addToBlacklist entry ∈ mixedCalls ∧ EntryContains documentedCrate entry a) ∧
            ¬ ∃ entry, .addToWhitelist entry ∈ mixedCalls ∧ EntryContains documentedCrate entry a) :=
  hybrid_refines documentedCrate documentedCrate_hosts mixedCalls "10.1.2.3"

example : (run documentedCrate mixedCalls).isBlacklisted documentedCrate "10.9.9.9" = true ∧
    (run documentedCrate mixedCalls).isBlacklisted documentedCrate "10.1.2.3" = false := by
  decide +kernel

end MiniWaf.Lists

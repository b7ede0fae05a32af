import WordMachine.Fault

/-!
# Devices

A device hands out character codes and takes them. Each call gives the device as it is afterwards,
also when the call failed.
-/

namespace WordMachine

class Device (δ : Type) where
  input : δ → Except FailureKind Word × δ
  output : δ → Word → Except FailureKind Unit × δ

end WordMachine

import Bluefog.Engine.Collective
import Bluefog.Engine.Topology
import Bluefog.Engine.Window
import Bluefog.Algorithms.GradientDescent
import Bluefog.Algorithms.ExactDiffusion
import Bluefog.Algorithms.GradientTracking
import Bluefog.Algorithms.PushDIGing
import Bluefog.Algorithms.PushDIGingSync
import Bluefog.Algorithms.PushDIGingDelivery
import Bluefog.Algorithms.Reference
import Bluefog.Run.InteractiveRun

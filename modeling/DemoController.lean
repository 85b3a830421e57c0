import DemoController.HostRouting
import DemoController.Deliveries
import DemoController.Isolation
import DemoController.Routes
import DemoController.Convergence
import DemoController.ObjectNames
import DemoController.Readiness
import DemoController.NonceBinding
import DemoController.Images
import DemoController.ServicePort
import DemoController.VaultPool
import DemoController.Secrecy
import DemoController.RateWindow
import DemoController.Signatures
import DemoController.ImageReferences
import DemoController.ProxyMessages
import DemoController.ProxyTargets
import DemoController.TokenRenewal
import DemoController.Environment
import DemoController.Pass
import DemoController.DnsLabels
import DemoController.ResourceLimits
import DemoController.LogSelector
import DemoController.LogFrames
import DemoController.UnitStatus
import DemoController.WorkflowClient
import DemoController.WorkflowOutput
import DemoController.Settings
import DemoController.CharmHooks
import DemoController.Backends
